import SinkReach.Table

/-!
Look-up laws of tables. They hold for every order of the keys, and for every equality of keys that is
an equivalence.
-/
namespace SinkReach.Table

variable {κ : Type u} {α : Type v} [BEq κ]

theorem lookup_cons (k : κ) (e : κ × α) (es : List (κ × α)) :
    lookup k (e :: es) = if e.1 == k then some e.2 else lookup k es := rfl

theorem lookup_congr [EquivBEq κ] {k k' : κ} (h : (k == k') = true) (es : List (κ × α)) :
    lookup k es = lookup k' es := by
  induction es with
  | nil => rfl
  | cons e es ih => rw [lookup_cons, lookup_cons, ih, BEq.congr_right h]

/-- A key that another one is not equal to is found past it. -/
theorem beq_false_of_beq_true [EquivBEq κ] {j k k' : κ} (miss : (j == k) = false)
    (hit : (j == k') = true) : (k == k') = false := by
  rw [← BEq.congr_right hit, BEq.comm, miss]

theorem lookup_replace [EquivBEq κ] (k k' : κ) (a : α) (es : List (κ × α)) :
    lookup k' (replace k a es) =
      if k == k' then (lookup k es).map fun _ => a else lookup k' es := by
  induction es with
  | nil => simp [lookup, replace]
  | cons e es ih =>
    cases hit : e.1 == k with
    | true =>
      have same : (k == k') = (e.1 == k') := (BEq.congr_left hit).symm
      simp only [replace, hit, if_true, lookup_cons, same]
      cases e.1 == k' <;> simp
    | false =>
      simp only [replace, hit, Bool.false_eq_true, if_false, lookup_cons, ih]
      cases other : e.1 == k' with
      | true => simp [beq_false_of_beq_true hit other]
      | false => simp

theorem lookup_eq_none_of_cons {k : κ} {e : κ × α} {es : List (κ × α)}
    (h : lookup k (e :: es) = none) : (e.1 == k) = false ∧ lookup k es = none := by
  rw [lookup_cons] at h
  cases hit : e.1 == k with
  | true => simp [hit] at h
  | false => simpa [hit] using h

theorem lookup_place [Ord κ] [EquivBEq κ] (k k' : κ) (a : α) (es : List (κ × α))
    (fresh : lookup k es = none) :
    lookup k' (place k a es) = if k == k' then some a else lookup k' es := by
  induction es with
  | nil => rfl
  | cons e es ih =>
    obtain ⟨miss, rest⟩ := lookup_eq_none_of_cons fresh
    simp only [place]
    split
    · rfl
    · rw [lookup_cons, lookup_cons, ih rest]
      cases other : e.1 == k' with
      | true => simp [beq_false_of_beq_true miss other]
      | false => simp

@[simp] theorem get?_empty (k : κ) : ({} : Table κ α).get? k = none := rfl

theorem get?_congr [EquivBEq κ] (t : Table κ α) {k k' : κ} (h : (k == k') = true) :
    t.get? k = t.get? k' := lookup_congr h t.entries

theorem get?_insert [Ord κ] [EquivBEq κ] (t : Table κ α) (k k' : κ) (a : α) :
    (t.insert k a).get? k' = if k == k' then some a else t.get? k' := by
  cases known : t.get? k with
  | some b =>
    have stands : lookup k t.entries = some b := known
    simp only [insert, contains, known, Option.isSome_some, if_true]
    have replaced := lookup_replace k k' a t.entries
    rw [stands] at replaced
    exact replaced
  | none =>
    simp only [insert, contains, known, Option.isSome_none, Bool.false_eq_true, if_false]
    exact lookup_place k k' a t.entries known

@[simp] theorem get?_insert_self [Ord κ] [EquivBEq κ] (t : Table κ α) (k : κ) (a : α) :
    (t.insert k a).get? k = some a := by simp [get?_insert]

theorem get?_insert_ne [Ord κ] [LawfulBEq κ] (t : Table κ α) {k k' : κ} (a : α) (h : k ≠ k') :
    (t.insert k a).get? k' = t.get? k' := by simp [get?_insert, h]

theorem get?_filterKeys [LawfulBEq κ] (t : Table κ α) (keep : κ → Bool) (k : κ) :
    (t.filterKeys keep).get? k = if keep k then t.get? k else none := by
  obtain ⟨es⟩ := t
  induction es with
  | nil => simp [filterKeys, get?, lookup]
  | cons e es ih =>
    simp only [filterKeys, get?, List.filter_cons] at ih ⊢
    by_cases hit : e.1 = k
    · subst hit
      cases kept : keep e.1 with
      | true => simp [lookup_cons]
      | false => simpa [lookup_cons, kept] using ih
    · cases kept : keep e.1 with
      | true => simp [lookup_cons, hit, ih]
      | false => simp [lookup_cons, hit, ih]

theorem mem_of_lookup [LawfulBEq κ] {k : κ} {a : α} {es : List (κ × α)}
    (h : lookup k es = some a) : (k, a) ∈ es := by
  induction es with
  | nil => cases h
  | cons e es ih =>
    rw [lookup_cons] at h
    split at h
    next hit =>
      cases h
      rw [← eq_of_beq hit]
      exact List.mem_cons_self
    next => exact List.mem_cons_of_mem _ (ih h)

theorem mem_of_get? [LawfulBEq κ] {t : Table κ α} {k : κ} {a : α} (h : t.get? k = some a) :
    (k, a) ∈ t.entries := mem_of_lookup h

theorem mem_replace {e : κ × α} {k : κ} {a : α} {es : List (κ × α)} (h : e ∈ replace k a es) :
    e = (k, a) ∨ e ∈ es := by
  induction es with
  | nil => exact .inr h
  | cons e' es ih =>
    rw [replace] at h
    split at h
    · exact (List.mem_cons.1 h).imp_right (List.mem_cons_of_mem _)
    · rcases List.mem_cons.1 h with h | h
      · exact .inr (h ▸ List.mem_cons_self)
      · exact (ih h).imp_right (List.mem_cons_of_mem _)

omit [BEq κ] in
theorem place_perm [Ord κ] (k : κ) (a : α) (es : List (κ × α)) :
    (place k a es).Perm ((k, a) :: es) := by
  induction es with
  | nil => exact .refl _
  | cons e es ih =>
    simp only [place]
    split
    · exact .refl _
    · exact (ih.cons e).trans (.swap ..)

/-- A new key takes an entry of its own. -/
theorem length_insert [Ord κ] {t : Table κ α} {k : κ} (a : α) (fresh : t.get? k = none) :
    (t.insert k a).entries.length = t.entries.length + 1 := by
  simp only [insert, contains, fresh, Option.isSome_none, Bool.false_eq_true, if_false]
  exact (place_perm k a t.entries).length_eq

/-- A table has no entries after an insertion but the new one and those it had. -/
theorem mem_insert [Ord κ] {t : Table κ α} {e : κ × α} {k : κ} {a : α}
    (h : e ∈ (t.insert k a).entries) : e = (k, a) ∨ e ∈ t.entries := by
  unfold insert at h
  split at h
  · exact mem_replace h
  · exact List.mem_cons.1 ((place_perm k a t.entries).mem_iff.1 h)

theorem exists_of_lookup {k : κ} {a : α} {es : List (κ × α)} (h : lookup k es = some a) :
    ∃ k', (k', a) ∈ es ∧ (k' == k) = true := by
  induction es with
  | nil => cases h
  | cons e es ih =>
    rw [lookup_cons] at h
    split at h
    next hit =>
      cases h
      exact ⟨e.1, List.mem_cons_self, hit⟩
    next =>
      obtain ⟨k', mem, hit⟩ := ih h
      exact ⟨k', List.mem_cons_of_mem _ mem, hit⟩

theorem isSome_lookup {k : κ} {es : List (κ × α)} :
    (lookup k es).isSome = true ↔ ∃ k' ∈ es.map (·.1), (k' == k) = true := by
  induction es with
  | nil => simp [lookup]
  | cons e es ih =>
    rw [lookup_cons, List.map_cons]
    simp only [List.mem_cons, exists_eq_or_imp, ← ih]
    cases e.1 == k <;> simp

theorem isSome_get? {t : Table κ α} {k : κ} :
    (t.get? k).isSome = true ↔ ∃ k' ∈ t.keys, (k' == k) = true := isSome_lookup

theorem isSome_get?_insertKeys [Ord κ] [EquivBEq κ] (ks : List κ) (t : Table κ Unit) (k : κ) :
    ((ks.foldl (fun t k => t.insert k ()) t).get? k).isSome = true ↔
      (t.get? k).isSome = true ∨ ∃ k' ∈ ks, (k' == k) = true := by
  induction ks generalizing t with
  | nil => simp
  | cons k' ks ih =>
    rw [List.foldl_cons, ih, get?_insert]
    simp only [List.mem_cons, exists_eq_or_imp]
    cases k' == k with
    | true => simp
    | false => simp

/-- The union has the keys of both tables, up to equality of keys. -/
theorem exists_mem_unionKeys [Ord κ] [EquivBEq κ] {β : Type w} (t : Table κ α) (u : Table κ β) (k : κ) :
    (∃ k' ∈ t.unionKeys u, (k' == k) = true) ↔
      (t.get? k).isSome = true ∨ (u.get? k).isSome = true := by
  unfold unionKeys
  rw [← isSome_get?, isSome_get?_insertKeys, ← isSome_get?]
  refine or_congr_left ?_
  rw [isSome_get?, isSome_get?, keys, keys, List.map_map]
  rfl

theorem mem_keys_insertKeys [Ord κ] {ks : List κ} {t : Table κ Unit} {k : κ}
    (h : k ∈ (ks.foldl (fun t k => t.insert k ()) t).keys) : k ∈ t.keys ∨ k ∈ ks := by
  induction ks generalizing t with
  | nil => exact .inl h
  | cons k' ks ih =>
    rcases ih h with h | h
    · obtain ⟨e, he, rfl⟩ := List.mem_map.1 h
      rcases mem_insert he with rfl | he
      · exact .inr List.mem_cons_self
      · exact .inl (List.mem_map.2 ⟨e, he, rfl⟩)
    · exact .inr (List.mem_cons_of_mem _ h)

theorem mem_of_mem_unionKeys [Ord κ] {β : Type w} {t : Table κ α} {u : Table κ β} {k : κ}
    (h : k ∈ t.unionKeys u) : k ∈ t.keys ∨ k ∈ u.keys := by
  refine (mem_keys_insertKeys h).imp_left fun own => ?_
  rw [keys, List.map_map] at own
  exact own

/-- No key stands twice. -/
def Distinct (t : Table κ α) : Prop := t.keys.Nodup

theorem keys_replace [LawfulBEq κ] (k : κ) (a : α) (es : List (κ × α)) :
    (replace k a es).map (·.1) = es.map (·.1) := by
  induction es with
  | nil => rfl
  | cons e es ih =>
    simp only [replace]
    split
    next hit => simp [← eq_of_beq hit]
    next => simp [ih]

theorem lookup_eq_none [LawfulBEq κ] {k : κ} {es : List (κ × α)} :
    lookup k es = none ↔ k ∉ es.map (·.1) := by
  induction es with
  | nil => simp [lookup]
  | cons e es ih =>
    rw [lookup_cons]
    by_cases hit : e.1 = k
    · simp [hit]
    · simp [hit, ih, Ne.symm hit]

theorem Distinct.insert [Ord κ] [LawfulBEq κ] {t : Table κ α} (h : t.Distinct) (k : κ) (a : α) :
    (t.insert k a).Distinct := by
  cases known : t.get? k with
  | some b =>
    simp only [Table.insert, contains, known, Option.isSome_some, if_true]
    simpa only [Distinct, keys, keys_replace] using h
  | none =>
    simp only [Table.insert, contains, known, Option.isSome_none, Bool.false_eq_true, if_false]
    have fresh : k ∉ t.keys := lookup_eq_none.1 known
    have placed := (place_perm k a t.entries).map (fun e : κ × α => e.1)
    exact placed.nodup_iff.2 (List.nodup_cons.2 ⟨fresh, h⟩)

theorem mem_iff_lookup [LawfulBEq κ] {es : List (κ × α)} (h : (es.map fun e => e.1).Nodup) (k : κ)
    (a : α) : (k, a) ∈ es ↔ lookup k es = some a := by
  induction es with
  | nil => simp [lookup]
  | cons e es ih =>
    obtain ⟨fresh, rest⟩ := List.nodup_cons.1 h
    obtain ⟨k', a'⟩ := e
    rw [lookup_cons, List.mem_cons]
    by_cases hit : k' = k
    · subst hit
      have absent : (k', a) ∉ es := fun mem => fresh (List.mem_map.2 ⟨_, mem, rfl⟩)
      simp [absent, eq_comm]
    · simp [hit, Ne.symm hit, ih rest]

theorem Distinct.mem_entries [LawfulBEq κ] {t : Table κ α} (h : t.Distinct) {k : κ} {a : α} :
    (k, a) ∈ t.entries ↔ t.get? k = some a := mem_iff_lookup h k a

end SinkReach.Table
