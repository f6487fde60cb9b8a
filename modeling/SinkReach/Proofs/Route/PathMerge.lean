import Mathlib.Data.List.Basic
import SinkReach.Route.Node

/-!
Paths that meet. What two paths share from their start on is the longest start of both, and merging keeps that,
up to the node at which both end. That node may stand where a third path goes elsewhere; but it is the end of
the third path too, so whether it is appended now or after the next merge makes no difference, and any number of
paths merge to the same path in whatever order they come.
-/
namespace SinkReach

section CommonStart

variable {α : Type} [DecidableEq α]

theorem commonStart_self (as : List α) : commonStart as as = as := by
  induction as with
  | nil => rfl
  | cons a as ih => rw [commonStart, if_pos rfl, ih]

theorem commonStart_comm : ∀ as bs : List α, commonStart as bs = commonStart bs as
  | [], [] | [], _ :: _ | _ :: _, [] => rfl
  | a :: as, b :: bs => by
    rw [commonStart, commonStart, commonStart_comm as bs]
    by_cases same : a = b
    · rw [if_pos same, if_pos same.symm, same]
    · rw [if_neg same, if_neg (Ne.symm same)]

theorem commonStart_assoc : ∀ as bs cs : List α,
    commonStart (commonStart as bs) cs = commonStart as (commonStart bs cs)
  | [], [], _ | [], _ :: _, [] | _ :: _, [], _ => rfl
  | [], b :: bs, c :: cs => by
    rw [commonStart_comm [] (commonStart (b :: bs) (c :: cs))]
    cases commonStart (b :: bs) (c :: cs) <;> rfl
  | a :: as, b :: bs, [] => by
    rw [commonStart_comm _ []]
    cases commonStart (a :: as) (b :: bs) <;> rfl
  | a :: as, b :: bs, c :: cs => by
    by_cases first : a = b
    · subst first
      by_cases second : a = c
      · subst second
        simp only [commonStart, if_true, commonStart_assoc as bs cs]
      · simp only [commonStart, if_true, if_neg second]
    · by_cases second : b = c
      · simp only [commonStart, if_neg first, if_pos second]
      · simp only [commonStart, if_neg first, if_neg second]

theorem isPrefix_commonStart : ∀ as bs : List α, commonStart as bs <+: as
  | [], [] | [], _ :: _ => List.prefix_rfl
  | _ :: _, [] => List.nil_prefix
  | a :: as, b :: bs => by
    rw [commonStart]
    split
    · exact List.prefix_cons_inj a |>.2 (isPrefix_commonStart as bs)
    · exact List.nil_prefix

/-- No start that both lists share is longer. -/
theorem commonStart_isGreatest {cs : List α} :
    ∀ {as bs : List α}, cs <+: as → cs <+: bs → cs <+: commonStart as bs := by
  induction cs with
  | nil => exact fun _ _ => List.nil_prefix
  | cons c cs ih =>
    rintro _ _ ⟨as, rfl⟩ ⟨bs, rfl⟩
    rw [List.cons_append, List.cons_append, commonStart, if_pos rfl]
    exact (List.prefix_cons_inj c).2 (ih (List.prefix_append cs as) (List.prefix_append cs bs))

theorem head?_commonStart {as bs : List α} (same : as.head? = bs.head?) : (commonStart as bs).head? = as.head? := by
  cases as with
  | nil => cases bs <;> rfl
  | cons a as =>
    cases bs with
    | nil => cases same
    | cons b bs =>
      rw [commonStart, if_pos (Option.some.inj same)]
      rfl

/-- One more node matters only where all before it is shared. -/
theorem commonStart_concat (z : α) : ∀ as bs : List α, commonStart (as ++ [z]) bs = commonStart as bs ∨
    commonStart (as ++ [z]) bs = as ++ [z] ∧ commonStart as bs = as
  | [], [] | _ :: _, [] => .inl rfl
  | [], b :: bs => by
    by_cases same : z = b
    · exact .inr ⟨by rw [List.nil_append, commonStart, if_pos same]; cases bs <;> rfl, rfl⟩
    · exact .inl (by rw [List.nil_append, commonStart, if_neg same]; rfl)
  | a :: as, b :: bs => by
    rw [List.cons_append, commonStart, commonStart]
    by_cases same : a = b
    · rw [if_pos same, if_pos same]
      exact (commonStart_concat z as bs).imp (congrArg (a :: ·)) (And.imp (congrArg (a :: ·)) (congrArg (a :: ·)))
    · rw [if_neg same, if_neg same]
      exact .inl rfl

end CommonStart

namespace Path

variable {p q r : Path} {z : Node} {ns : List Node}

theorem toList_push (p : Path) (n : Node) : (p.push n).toList = p.toList ++ [n] := by
  simp only [toList, push, List.reverse_cons]

theorem getLast?_toList (p : Path) : p.toList.getLast? = some p.last := List.getLast?_concat

theorem toList_injective (same : p.toList = q.toList) : p = q := by
  cases p
  cases q
  have parts := List.append_inj' same rfl
  rw [Path.mk.injEq]
  exact ⟨List.singleton_inj.1 parts.2, List.reverse_injective parts.1⟩

/-- Nodes, followed by a last one unless they end in it. -/
def ending (z : Node) (ns : List Node) : Path :=
  match ns.reverse with
  | [] => ⟨z, []⟩
  | n :: before => if n = z then ⟨n, before⟩ else ⟨z, n :: before⟩

theorem ending_of_getLast? (h : ns.getLast? = some z) : (ending z ns).toList = ns := by
  obtain ⟨before, rfl⟩ := List.getLast?_eq_some_iff.1 h
  simp [ending, toList]

theorem ending_of_ne (h : ns.getLast? ≠ some z) : ending z ns = ⟨z, ns.reverse⟩ := by
  unfold ending
  split
  next none => rw [none]
  next n before split' =>
    have last : ns.getLast? = some n := by rw [List.getLast?_eq_head?_reverse, split', List.head?_cons]
    have other : n ≠ z := fun same => h (same ▸ last)
    rw [if_neg other, split']

theorem toList_ending (z : Node) (ns : List Node) :
    (ending z ns).toList = if ns.getLast? = some z then ns else ns ++ [z] := by
  split
  next h => exact ending_of_getLast? h
  next h => rw [ending_of_ne h, toList, List.reverse_reverse]

theorem last_ending (z : Node) (ns : List Node) : (ending z ns).last = z := by
  by_cases h : ns.getLast? = some z
  · refine Option.some.inj ?_
    rw [← getLast?_toList, ending_of_getLast? h, h]
  · rw [ending_of_ne h]

theorem ending_toList (p : Path) : ending p.last p.toList = p :=
  toList_injective (ending_of_getLast? p.getLast?_toList)

/-- What is shared with a further list is the same, up to the last node, before and after that node is appended. -/
theorem ending_commonStart (z : Node) (ns ms : List Node) :
    ending z (commonStart (ending z ns).toList ms) = ending z (commonStart ns ms) := by
  rw [toList_ending]
  split
  next => rfl
  next other =>
    rcases commonStart_concat z ns ms with same | ⟨whole, all⟩
    · rw [same]
    · rw [whole, all]
      refine toList_injective ?_
      rw [ending_of_getLast? List.getLast?_concat, toList_ending, if_neg other]

theorem merge?_eq (p q : Path) :
    p.merge? q = if p.last = q.last then some (ending p.last (p.common q)) else none := by
  unfold merge? ending
  split
  next =>
    cases (p.common q).reverse with
    | nil => rfl
    | cons n before => exact (apply_ite some ..).symm
  next => rfl

theorem merge?_eq_none_iff : p.merge? q = none ↔ p.last ≠ q.last := by
  rw [merge?_eq, ite_eq_right_iff]
  exact ⟨fun none same => (nomatch none same), fun other same => absurd same other⟩

theorem exists_merge? (same : p.last = q.last) : ∃ r, p.merge? q = some r := by
  rw [merge?_eq, if_pos same]
  exact ⟨_, rfl⟩

theorem merge?_eq_some (h : p.merge? q = some r) : p.last = q.last ∧ r = ending p.last (p.common q) := by
  rw [merge?_eq, Option.ite_none_right_eq_some] at h
  exact ⟨h.1, (Option.some.inj h.2).symm⟩

theorem merge?_last (h : p.merge? q = some r) : r.last = p.last ∧ p.last = q.last := by
  obtain ⟨same, rfl⟩ := merge?_eq_some h
  exact ⟨last_ending .., same⟩

/-- The merged path is the common start, or that with the end of both where it ends elsewhere. -/
theorem merge?_toList (h : p.merge? q = some r) :
    r.toList = p.common q ∨ r.toList = p.common q ++ [p.last] ∧ (p.common q).getLast? ≠ some p.last := by
  obtain ⟨-, rfl⟩ := merge?_eq_some h
  rw [toList_ending]
  split
  next => exact .inl rfl
  next other => exact .inr ⟨rfl, other⟩

/-- What is before the end of a merged path was before the end of the earlier one, in the same order. -/
theorem merge?_before (h : p.merge? q = some r) : r.before.reverse <+: p.before.reverse := by
  have start : p.common q <+: p.before.reverse ++ [p.last] := isPrefix_commonStart ..
  rcases merge?_toList h with same | ⟨ends, other⟩
  · rw [← same, toList, List.prefix_concat_iff] at start
    rcases start with all | inside
    · exact (List.append_inj_left' all rfl) ▸ List.prefix_rfl
    · exact (List.prefix_append ..).trans inside
  · rcases List.prefix_concat_iff.1 start with all | inside
    · exact absurd (all ▸ List.getLast?_concat) other
    · exact List.append_inj_left' ends rfl ▸ inside

theorem merge?_head (h : p.merge? q = some r) (same : p.toList.head? = q.toList.head?) :
    r.toList.head? = p.toList.head? := by
  have common : (p.common q).head? = p.toList.head? := head?_commonStart same
  obtain ⟨n, first⟩ : ∃ n, p.toList.head? = some n := by
    cases known : p.toList with
    | nil => cases List.append_ne_nil_of_right_ne_nil _ (List.cons_ne_nil _ _) known
    | cons n ns => exact ⟨n, rfl⟩
  rcases merge?_toList h with same | ⟨ends, -⟩
  · rw [same, common]
  · rw [ends, List.head?_append, common, first]
    rfl

theorem merge?_self (p : Path) : p.merge? p = some p := by
  rw [merge?_eq, if_pos rfl, common, commonStart_self, ending_toList]

theorem merge?_comm (p q : Path) : p.merge? q = q.merge? p := by
  rw [merge?_eq, merge?_eq]
  by_cases same : p.last = q.last
  · rw [if_pos same, if_pos same.symm, same, common, common, commonStart_comm]
  · rw [if_neg same, if_neg (Ne.symm same)]

/-- A merged path is merged with a third one by what all three share. -/
theorem bind_merge? (p q r : Path) : ((p.merge? q).bind (·.merge? r)) = if p.last = q.last ∧ q.last = r.last
    then some (ending p.last (commonStart (p.common q) r.toList)) else none := by
  rw [merge?_eq]
  by_cases first : p.last = q.last
  · rw [if_pos first, Option.bind_some, merge?_eq, last_ending]
    by_cases second : q.last = r.last
    · rw [if_pos (first.trans second), if_pos ⟨first, second⟩, common, ending_commonStart]
    · rw [if_neg (first ▸ second), if_neg fun both => second both.2]
  · rw [if_neg first, if_neg fun both => first both.1, Option.bind_none]

theorem merge?_assoc (p q r : Path) : (p.merge? q).bind (·.merge? r) = (q.merge? r).bind p.merge? := by
  have mirrored : (q.merge? r).bind p.merge? = (q.merge? r).bind (·.merge? p) :=
    congrArg (Option.bind _) (funext fun s => merge?_comm p s)
  rw [mirrored, bind_merge?, bind_merge?]
  by_cases first : p.last = q.last
  · by_cases second : q.last = r.last
    · have third : r.last = p.last := (first.trans second).symm
      rw [if_pos ⟨first, second⟩, if_pos ⟨second, third⟩, first]
      rw [common, common, commonStart_assoc, commonStart_comm p.toList]
    · rw [if_neg fun both => second both.2, if_neg fun both => second both.1]
  · rw [if_neg fun both => first both.1, if_neg fun both => first (both.1.trans both.2).symm]

theorem merge?_right_comm (p q r : Path) : (p.merge? q).bind (·.merge? r) = (p.merge? r).bind (·.merge? q) := by
  rw [merge?_comm p q, merge?_assoc]
  cases p.merge? r with
  | none => rfl
  | some s => exact merge?_comm q s

/-- The path is the longest start of two paths with the same end, up to that end, which is not repeated. -/
structure IsMeet (p q r : Path) : Prop where
  ends : p.last = q.last
  shared : ∃ start, start <+: p.toList ∧ start <+: q.toList ∧
    (∀ other, other <+: p.toList → other <+: q.toList → other <+: start) ∧
    r.toList = if start.getLast? = some p.last then start else start ++ [p.last]

theorem merge?_iff : p.merge? q = some r ↔ p.IsMeet q r := by
  constructor
  · intro h
    obtain ⟨ends, rfl⟩ := merge?_eq_some h
    refine ⟨ends, p.common q, isPrefix_commonStart .., ?_, fun _ => commonStart_isGreatest, toList_ending ..⟩
    rw [common, commonStart_comm]
    exact isPrefix_commonStart ..
  · rintro ⟨ends, start, left, right, greatest, nodes⟩
    have longest : start = p.common q := by
      refine (commonStart_isGreatest left right).eq_of_length_le (greatest _ (isPrefix_commonStart ..) ?_).length_le
      rw [commonStart_comm]
      exact isPrefix_commonStart ..
    rw [merge?_eq, if_pos ends, ← longest]
    exact congrArg some (toList_injective ((toList_ending ..).trans nodes.symm))

/-- All paths merged as they come, the first with the second, the result with the third and so on. -/
def mergeAll? : List Path → Option Path
  | [] => none
  | p :: ps => ps.foldlM merge? p

theorem foldlM_merge?_perm {ps qs : List Path} (h : ps.Perm qs) (p : Path) :
    ps.foldlM merge? p = qs.foldlM merge? p := by
  induction h generalizing p with
  | nil => rfl
  | cons q _ ih =>
    rw [List.foldlM_cons, List.foldlM_cons]
    exact congrArg _ (funext ih)
  | swap q r ps =>
    simp only [List.foldlM_cons, ← bind_assoc]
    exact congrArg (· >>= fun s => ps.foldlM merge? s) (merge?_right_comm p r q)
  | trans _ _ ih ih' => exact (ih p).trans (ih' p)

theorem mergeAll?_perm {ps qs : List Path} (h : ps.Perm qs) : mergeAll? ps = mergeAll? qs := by
  induction h with
  | nil => rfl
  | cons p h => exact foldlM_merge?_perm h p
  | swap p q ps => exact congrArg (· >>= fun s => ps.foldlM merge? s) (merge?_comm q p)
  | trans _ _ ih ih' => exact ih.trans ih'

theorem exists_mergeAll? (p : Path) (ps : List Path) (h : ∀ q ∈ ps, p.last = q.last) :
    ∃ r, mergeAll? (p :: ps) = some r ∧ r.last = p.last := by
  induction ps generalizing p with
  | nil => exact ⟨p, rfl, rfl⟩
  | cons q qs ih =>
    obtain ⟨first, rest⟩ := List.forall_mem_cons.1 h
    obtain ⟨s, merged⟩ := exists_merge? first
    obtain ⟨last, -⟩ := merge?_last merged
    obtain ⟨r, all, end'⟩ := ih s fun u mem => last.trans (rest u mem)
    refine ⟨r, ?_, end'.trans last⟩
    rw [mergeAll?, List.foldlM_cons, merged]
    exact all

end Path
end SinkReach
