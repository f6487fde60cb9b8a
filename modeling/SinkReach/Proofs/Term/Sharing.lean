import SinkReach.Proofs.Term.Nodes
import SinkReach.Proofs.Term.Quoting

/-!
Sharing in scripts is transparent. A definition refers to definitions made before it alone, and stands for the
node that it was made for; so putting the definitions back in place of their names, the latest first, leads
from the asserted tokens to those of the unfolded constraints.
-/
namespace SinkReach

open SExpr (tokensAll)

namespace Term

variable {roots : List Term} {t c : Term} {names : Names}

/-- What stands before the operands of an application. -/
def heads : Term → List SExpr
  | leaf _ a => [a.sexpr]
  | unary _ op _ => op.head
  | binary _ op _ _ => op.head
  | ternary _ op _ _ _ => [.atom op.name]
  | junction _ op _ => [.atom op.name]

theorem referAll_eq (names : Names) (ts : List Term) : referAll names ts = ts.map (refer names) := by
  induction ts with
  | nil => rfl
  | cons t ts ih => rw [referAll, ih, List.map_cons]

/-- The node as an application to its operands, by name where they have one. -/
def applied (names : Names) (t : Term) : SExpr := .list (t.heads ++ t.children.map (refer names))

/-- A node that is no leaf is its definition, or else an application. -/
theorem refer_node (names : Names) (node : ∀ l a, t ≠ leaf l a) :
    t.refer names = (names[t.label]?).elim (t.applied names) .shared := by
  cases t with
  | leaf l a => exact absurd rfl (node l a)
  | unary l op a | binary l op a b | ternary l op a b c =>
    rw [refer, label]
    cases names[l]? <;> rfl
  | junction l op items =>
    rw [refer, label, referAll_eq]
    cases names[l]? <;> rfl

/-- The node with nothing shared. -/
def inlined (t : Term) : SExpr := t.refer {}

theorem inlined_node (node : ∀ l a, t ≠ leaf l a) : t.inlined = .list (t.heads ++ t.children.map inlined) := by
  rw [inlined, refer_node {} node, Std.HashMap.getElem?_empty]
  rfl

/-- Names of constants are not those of definitions, as they are spelled. -/
def NamesApart (roots : List Term) : Prop := ∀ name sort, (name, sort) ∈ varsAll roots → ∀ k, name ≠ sharedName k

/-- What holds of fixed tokens and of its symbol, if it is a constant, holds of the token of a leaf. -/
theorem forall_tokens_leaf {P : String → Prop} (fixed : ∀ tok, Fixed tok → P tok) {l : Label} {a : Atom}
    (constant : ∀ name sort, (name, sort) ∈ (leaf l a).vars → P (symbol name)) : ∀ tok ∈ a.sexpr.tokens, P tok := by
  by_cases literal : ∀ name sort, a ≠ .var name sort
  · exact fun tok mem => fixed tok (a.isFixed_sexpr (fun name sort same => absurd same (literal name sort)) tok mem)
  push Not at literal
  obtain ⟨name, sort, rfl⟩ := literal
  exact List.forall_mem_singleton.2 (constant name sort (List.mem_singleton_self _))

theorem isFixed_leaf (apart : NamesApart roots) {l : Label} {a : Atom} (h : Below roots (leaf l a)) :
    a.sexpr.IsFixed :=
  forall_tokens_leaf (fun _ => id) fun name sort mem => .symbol (apart name sort (h.vars_subset mem))

theorem isFixed_heads (node : ∀ l a, t ≠ leaf l a) : ∀ s ∈ t.heads, s.IsFixed := by
  cases t with
  | leaf l a => exact absurd rfl (node l a)
  | unary l op a => exact op.isFixed_head
  | binary l op a b => exact op.isFixed_head
  | ternary l op a b c => cases op <;> exact List.forall_mem_singleton.2 (SExpr.isFixed_atom (.word (by decide)))
  | junction l op items => cases op <;> exact List.forall_mem_singleton.2 (SExpr.isFixed_atom (.word (by decide)))

/-- What holds of fixed tokens, of the symbols of the constants and of the names of definitions that were made
holds of all tokens of a node. -/
theorem forall_tokens_refer {P : String → Prop} (fixed : ∀ tok, Fixed tok → P tok)
    (constant : ∀ name sort, (name, sort) ∈ varsAll roots → P (symbol name)) (names : Names)
    (made : ∀ (l : Label) (k : Nat), names[l]? = some k → P (sharedName k)) (t : Term) : Below roots t →
    ∀ tok ∈ (t.refer names).tokens, P tok := by
  induction t using induction_on_children with
  | step t ih =>
    intro h tok mem
    by_cases leaf : ∃ l a, t = leaf l a
    · obtain ⟨l, a, rfl⟩ := leaf
      exact forall_tokens_leaf fixed (fun name sort here => constant name sort (h.vars_subset here)) tok mem
    have node : ∀ l a, t ≠ .leaf l a := fun l a same => leaf ⟨l, a, same⟩
    rw [refer_node names node] at mem
    cases known : names[t.label]? with
    | some k =>
      rw [known] at mem
      exact List.mem_singleton.1 mem ▸ made _ k known
    | none =>
      rw [known] at mem
      rcases SExpr.mem_tokens_list.1 mem with rfl | rfl | ⟨s, item, mem⟩
      · exact fixed _ .opening
      · exact fixed _ .closing
      rcases List.mem_append.1 item with head | operand
      · exact fixed tok (isFixed_heads node s head tok mem)
      · obtain ⟨c, child, rfl⟩ := List.mem_map.1 operand
        exact ih c child (h.operand child) tok mem

/-- All tokens of a node are fixed, but for names of definitions that were made. -/
theorem token_refer (apart : NamesApart roots) (names : Names) (t : Term) (h : Below roots t) :
    ∀ tok ∈ (t.refer names).tokens, Fixed tok ∨ ∃ (l : Label) (k : Nat), names[l]? = some k ∧ tok = sharedName k :=
  forall_tokens_refer (fun _ => .inl) (fun name sort mem => .inl (.symbol (apart name sort mem))) names
    (fun l k known => .inr ⟨l, k, known, rfl⟩) t h

theorem reads_refer (names : Names) (t : Term) : ∀ tok ∈ (t.refer names).tokens, Reads tok :=
  forall_tokens_refer (fun _ => Fixed.reads) (fun name _ _ => reads_symbol name) names
    (fun _ k _ => reads_sharedName k) t (.root (List.mem_singleton_self t))

end Term

/-- Tokens with every occurrence of a name replaced. -/
def replaceName (name : String) (body tokens : List String) : List String :=
  tokens.flatMap fun t => if t = name then body else [t]

/-- Tokens with the definitions in place of their names, the latest first. -/
def putBack (bodies : List (List String)) (tokens : List String) : List String :=
  bodies.zipIdx.foldr (fun b tokens => replaceName (sharedName b.2) b.1 tokens) tokens

section PutBack

variable {bodies : List (List String)} {body ts : List String} {name : String}

theorem replaceName_of_not_mem (h : name ∉ ts) : replaceName name body ts = ts := by
  induction ts with
  | nil => rfl
  | cons t ts ih =>
    obtain ⟨first, rest⟩ := not_or.1 fun mem => h (List.mem_cons.2 mem)
    have others : replaceName name body ts = ts := ih rest
    rw [replaceName, List.flatMap_cons, if_neg (Ne.symm first)]
    exact congrArg (t :: ·) others

theorem replaceName_self : replaceName name body [name] = body := by
  simp [replaceName]

theorem putBack_append (ts us : List String) : putBack bodies (ts ++ us) = putBack bodies ts ++ putBack bodies us := by
  unfold putBack
  induction bodies.zipIdx with
  | nil => rfl
  | cons b bs ih =>
    rw [List.foldr_cons, ih]
    exact List.flatMap_append

/-- Fixed tokens stay. -/
theorem putBack_fixed (h : ∀ tok ∈ ts, Fixed tok) : putBack bodies ts = ts := by
  unfold putBack
  induction bodies.zipIdx with
  | nil => rfl
  | cons b bs ih =>
    rw [List.foldr_cons, ih]
    exact replaceName_of_not_mem fun mem => (h _ mem).other b.2 rfl

/-- The latest definition is put back first. -/
theorem putBack_concat (ts : List String) : putBack (bodies ++ [body]) ts =
    putBack bodies (replaceName (sharedName bodies.length) body ts) := by
  unfold putBack
  rw [List.zipIdx_append, List.foldr_append, Nat.zero_add]
  rfl

end PutBack

namespace Term

variable {roots : List Term} {names : Names} {bodies : List (List String)}

/-- Names stand for the nodes that they were given to. -/
def StandsFor (roots : List Term) (names : Names) (bodies : List (List String)) : Prop :=
  ∀ t, Below roots t → ∀ k, names[t.label]? = some k → putBack bodies [sharedName k] = t.inlined.tokens

theorem putBack_tokensAll {ts : List Term} {write written : Term → SExpr}
    (each : ∀ t ∈ ts, putBack bodies (write t).tokens = (written t).tokens) :
    putBack bodies (tokensAll (ts.map write)) = tokensAll (ts.map written) := by
  induction ts with
  | nil => exact putBack_fixed fun _ mem => nomatch mem
  | cons t ts ih =>
    obtain ⟨first, rest⟩ := List.forall_mem_cons.1 each
    rw [List.map_cons, List.map_cons, tokensAll, tokensAll, putBack_append, first, ih rest]

/-- With the definitions put back, a node is written out. -/
theorem putBack_refer (apart : NamesApart roots) (stands : StandsFor roots names bodies) (t : Term) :
    Below roots t → putBack bodies (t.refer names).tokens = t.inlined.tokens := by
  induction t using induction_on_children with
  | step t ih =>
    intro h
    by_cases leaf : ∃ l a, t = leaf l a
    · obtain ⟨l, a, rfl⟩ := leaf
      exact putBack_fixed (isFixed_leaf apart h)
    have node : ∀ l a, t ≠ .leaf l a := fun l a same => leaf ⟨l, a, same⟩
    rw [refer_node names node]
    cases known : names[t.label]? with
    | some k => exact stands t h k known
    | none =>
      have operands := putBack_tokensAll fun c child => ih c child (h.operand child)
      have heads : putBack bodies (tokensAll t.heads) = tokensAll t.heads := by
        refine putBack_fixed fun tok mem => ?_
        obtain ⟨s, head, mem⟩ := SExpr.mem_tokensAll.1 mem
        exact isFixed_heads node s head tok mem
      have paren {tok : String} (fixed : Fixed tok) : putBack bodies [tok] = [tok] :=
        putBack_fixed (List.forall_mem_singleton.2 fixed)
      rw [inlined_node node, Option.elim_none, applied, SExpr.tokens_list_append, SExpr.tokens_list_append]
      rw [putBack_append, putBack_append, putBack_append, paren .opening, paren .closing, heads, operands]

end Term

namespace Script

open Term (Below Labelled NamesApart StandsFor)

/-- Bodies of the definitions, in order. -/
def bodies (s : Script) : List (List String) := s.definitions.map (·.2.tokens)

namespace Draft

variable {roots : List Term} {d : Draft} {t : Term}

@[inherit_doc Script.bodies]
def bodies (d : Draft) : List (List String) := d.definitions.reverse.map (·.2.tokens)

theorem length_bodies (d : Draft) : d.bodies.length = d.definitions.length := by
  rw [bodies, List.length_map, List.length_reverse]

/-- The draft with a definition of the node. -/
def add (d : Draft) (t : Term) : Draft where
  names := d.names.insert t.label d.definitions.length
  definitions := (t.sort, t.refer d.names) :: d.definitions

theorem bodies_add (d : Draft) (t : Term) : (d.add t).bodies = d.bodies ++ [(t.refer d.names).tokens] := by
  rw [bodies, add, List.reverse_cons, List.map_append]
  rfl

theorem names_add (d : Draft) (t : Term) (l : Label) :
    (d.add t).names[l]? = if t.label = l then some d.definitions.length else d.names[l]? := by
  rw [add, Std.HashMap.getElem?_insert]
  simp only [beq_iff_eq]

/-- Names were given to definitions made before, which refer to earlier ones alone and stand for their
nodes. -/
structure Sound (roots : List Term) (d : Draft) : Prop where
  made : ∀ (l : Label) (k : Nat), d.names[l]? = some k → k < d.definitions.length
  stands : StandsFor roots d.names d.bodies
  earlier : ∀ i body, d.bodies[i]? = some body → ∀ j, sharedName j ∈ body → j < i

theorem Sound.empty : Sound roots {} := by
  refine ⟨fun l k known => ?_, fun t _ k known => ?_, fun i body found => ?_⟩
  · simp at known
  · simp at known
  · cases found

/-- A token of a node that is the name of a definition is that of one made. -/
theorem Sound.shared (sound : d.Sound roots) (apart : NamesApart roots) (h : Below roots t) {j : Nat}
    (mem : sharedName j ∈ (t.refer d.names).tokens) : j < d.definitions.length := by
  rcases Term.token_refer apart d.names t h _ mem with fixed | ⟨l, k, known, same⟩
  · exact absurd rfl (fixed.other j)
  · exact sharedName_injective same ▸ sound.made l k known

theorem Sound.add (sound : d.Sound roots) (labelled : Labelled roots) (apart : NamesApart roots)
    (h : Below roots t) : (d.add t).Sound roots := by
  refine ⟨fun l k known => ?_, fun u hu k known => ?_, fun i body found j mem => ?_⟩
  · rw [names_add] at known
    split at known
    · cases known
      exact Nat.lt_succ_self _
    · exact Nat.lt_succ_of_lt (sound.made l k known)
  · rw [names_add] at known
    rw [bodies_add, putBack_concat, length_bodies]
    split at known
    next same =>
      cases known
      rw [replaceName_self, ← labelled t u h hu same]
      exact Term.putBack_refer apart sound.stands t h
    next =>
      have older := sound.made _ k known
      have other : sharedName d.definitions.length ∉ [sharedName k] := fun mem =>
        Nat.ne_of_gt older (sharedName_injective (List.mem_singleton.1 mem))
      rw [replaceName_of_not_mem other]
      exact sound.stands u hu k known
  · rw [bodies_add] at found
    rcases Nat.lt_or_ge i d.bodies.length with old | new
    · rw [List.getElem?_append_left old] at found
      exact sound.earlier i body found j mem
    · rw [List.getElem?_append_right new] at found
      obtain ⟨here, rfl⟩ := List.getElem?_eq_some_iff.1 found
      have made := sound.shared apart h (List.getElem_singleton .. ▸ mem)
      rw [length_bodies] at new
      exact Nat.lt_of_lt_of_le made new

theorem Sound.define (sound : d.Sound roots) (labelled : Labelled roots) (apart : NamesApart roots)
    (h : Below roots t) (uses : Std.HashMap Label Nat) : (d.define uses t).Sound roots := by
  unfold Draft.define
  split
  · exact sound
  · exact sound.add labelled apart h

theorem Sound.foldl {ts : List Term} (sound : d.Sound roots) (labelled : Labelled roots) (apart : NamesApart roots)
    (h : ∀ t ∈ ts, Below roots t) (uses : Std.HashMap Label Nat) : (ts.foldl (Draft.define uses) d).Sound roots := by
  induction ts generalizing d with
  | nil => exact sound
  | cons t ts ih =>
    obtain ⟨first, rest⟩ := List.forall_mem_cons.1 h
    exact ih (sound.define labelled apart first uses) rest

/-- Definitions read as their tokens, whatever the nodes. -/
theorem reads_foldl (h : ∀ e ∈ d.definitions, ∀ tok ∈ e.2.tokens, Reads tok) (uses : Std.HashMap Label Nat)
    (ts : List Term) : ∀ e ∈ (ts.foldl (Draft.define uses) d).definitions, ∀ tok ∈ e.2.tokens, Reads tok := by
  induction ts generalizing d with
  | nil => exact h
  | cons t ts ih =>
    refine ih ?_
    unfold Draft.define
    split
    · exact h
    · exact List.forall_mem_cons.2 ⟨Term.reads_refer d.names t, h⟩

end Draft

/-- The commands that the script prints, one a line. -/
def commands (s : Script) : List SExpr :=
  (s.declarations.map fun d => .list [.atom "declare-const", .atom (symbol d.1), d.2.sexpr]) ++
    (s.definitions.zipIdx.map fun d => .list [.atom "define-fun", .shared d.2, .list [], d.1.1.sexpr, d.1.2]) ++
    s.asserts.map fun body => .list [.atom "assert", body]

section Text

variable (name : String) (sort : TermSort) (k : Nat) (body : SExpr)

theorem text_declaration : (SExpr.list [.atom "declare-const", .atom (symbol name), sort.sexpr]).text ++ "\n" =
    declaration name sort := by
  unfold declaration
  simp only [SExpr.text, SExpr.textAll, TermSort.text_sexpr]
  rw [← String.toList_inj]
  simp only [String.toList_append, List.append_assoc]
  rfl

theorem text_definition :
    (SExpr.list [.atom "define-fun", .shared k, .list [], sort.sexpr, body]).text ++ "\n" = definition k sort body := by
  unfold definition
  simp only [SExpr.text, SExpr.textAll, TermSort.text_sexpr]
  rw [← String.toList_inj]
  simp only [String.toList_append, List.append_assoc]
  rfl

theorem text_assertion : (SExpr.list [.atom "assert", body]).text ++ "\n" = assertion body := by
  unfold assertion
  simp only [SExpr.text, SExpr.textAll]
  rw [← String.toList_inj]
  simp only [String.toList_append, List.append_assoc]
  rfl

end Text

/-- The text is that of the commands. -/
theorem text_eq (s : Script) : s.text = String.join (s.commands.map fun c => c.text ++ "\n") := by
  simp only [commands, List.map_append, List.map_map, Function.comp_def, text_declaration, text_definition,
    text_assertion, String.join_append]
  rfl

/-- A text of commands whose tokens read as themselves reads as their tokens. -/
theorem readTokens_join {cs : List SExpr} (h : ∀ c ∈ cs, ∀ tok ∈ c.tokens, Reads tok) :
    readTokens (String.join (cs.map fun c => c.text ++ "\n")) = tokensAll cs := by
  unfold readTokens
  induction cs with
  | nil => rfl
  | cons c cs ih =>
    obtain ⟨first, rest⟩ := List.forall_mem_cons.1 h
    have text : (String.join ((c :: cs).map fun c => c.text ++ "\n")).toList =
        c.text.toList ++ '\n' :: (String.join (cs.map fun c => c.text ++ "\n")).toList := by
      simp [String.join_cons, String.toList_append]
    have newline : Ends ('\n' :: (String.join (cs.map fun c => c.text ++ "\n")).toList) :=
      fun d here => .inr (.inl (Option.some.inj here).symm)
    rw [text, SExpr.scan_text c first _ newline, scan_newline, ih rest]
    rfl

/-- The name that a command defines. -/
def definedName? : SExpr → Option String
  | .list (.atom "define-fun" :: name :: _) => some name.text
  | _ => none

/-- The symbol that a command declares. -/
def declaredSymbol? : SExpr → Option String
  | .list [.atom "declare-const", .atom sym, _] => some sym
  | _ => none

/-- Symbols of the declared constants, in order. -/
def declaredSymbols (s : Script) : List String := s.commands.filterMap declaredSymbol?

/-- What a script is to say of its constraints: its text reads as the tokens of the commands; these define
the names in order, each once; a definition uses earlier ones alone, and a constraint defined ones; the
constants of the constraints are declared with their sorts, each once and by its symbol; no symbol is spelled as
a definition's name, and that of a name without bars and backslashes denotes this name, which no definition has; and
with the definitions put back, the constraints are asserted in order, written out. -/
structure Transparent (constraints : List Term) (s : Script) : Prop where
  reads : readTokens s.text = tokensAll s.commands
  defined : s.commands.filterMap definedName? = (List.range s.bodies.length).map sharedName
  once : (s.commands.filterMap definedName?).Nodup
  before : ∀ i body, s.bodies[i]? = some body → ∀ j, sharedName j ∈ body → j < i
  known : ∀ a ∈ s.asserts, ∀ j, sharedName j ∈ a.tokens → j < s.bodies.length
  declared : ∀ name sort, (name, sort) ∈ s.declarations ↔ (name, sort) ∈ Term.varsAll constraints
  declaredOnce : (s.declarations.map (·.1)).Nodup
  symbols : s.declaredSymbols = s.declarations.map fun d => symbol d.1
  itself : ∀ d ∈ s.declarations, Barless d.1 → denoted (symbol d.1) = d.1
  apart : ∀ d ∈ s.declarations, ∀ k,
    symbol d.1 ≠ sharedName k ∧ (Barless d.1 → denoted (symbol d.1) ≠ sharedName k)
  unfolds : s.asserts.map (fun a => putBack s.bodies a.tokens) = constraints.map fun t => t.inlined.tokens

/-- Nothing is read from commands of a form that is not looked for. -/
theorem filterMap_map_eq_nil {α β : Type} {read : SExpr → Option β} {command : α → SExpr}
    (none : ∀ x, read (command x) = none) (xs : List α) : (xs.map command).filterMap read = [] := by
  rw [List.filterMap_map]
  exact List.filterMap_eq_nil_iff.2 fun x _ => none x

theorem declaredSymbols_eq (s : Script) : s.declaredSymbols = s.declarations.map fun d => symbol d.1 := by
  rw [declaredSymbols, commands, List.filterMap_append, List.filterMap_append,
    filterMap_map_eq_nil _ s.definitions.zipIdx, filterMap_map_eq_nil _ s.asserts, List.append_nil, List.append_nil,
    List.filterMap_map, ← List.filterMap_eq_map]
  · rfl
  · simp [declaredSymbol?]
  · simp [declaredSymbol?]

theorem filterMap_definedName? (s : Script) :
    s.commands.filterMap definedName? = (List.range s.bodies.length).map sharedName := by
  have definitions : s.commands.filterMap definedName? = s.definitions.zipIdx.map fun d => sharedName d.2 := by
    rw [commands, List.filterMap_append, List.filterMap_append, filterMap_map_eq_nil _ s.declarations,
      filterMap_map_eq_nil _ s.asserts, List.filterMap_map, List.nil_append, List.append_nil,
      ← List.filterMap_eq_map]
    · rfl
    · simp [definedName?]
    · simp [definedName?]
  rw [definitions, bodies, List.length_map, List.range_eq_range', ← List.zipIdx_map_snd, List.map_map]
  rfl

theorem reads_commands {s : Script} (definitions : ∀ d ∈ s.definitions, ∀ tok ∈ d.2.tokens, Reads tok)
    (asserts : ∀ a ∈ s.asserts, ∀ tok ∈ a.tokens, Reads tok) : ∀ c ∈ s.commands, ∀ tok ∈ c.tokens, Reads tok := by
  have word {tok : String} (h : isFixedWord tok = true) : ∀ t ∈ (SExpr.atom tok).tokens, Reads t :=
    List.forall_mem_singleton.2 (Fixed.word h).reads
  have sort (s : TermSort) : ∀ t ∈ s.sexpr.tokens, Reads t := fun t mem => (s.isFixed_sexpr t mem).reads
  intro c mem
  rcases List.mem_append.1 mem with mem | mem
  · rcases List.mem_append.1 mem with mem | mem
    · obtain ⟨d, -, rfl⟩ := List.mem_map.1 mem
      refine SExpr.reads_list (List.forall_mem_cons.2 ⟨word (by decide), List.forall_mem_cons.2 ⟨?_, ?_⟩⟩)
      · exact List.forall_mem_singleton.2 (reads_symbol d.1)
      · exact List.forall_mem_singleton.2 (sort d.2)
    · obtain ⟨d, here, rfl⟩ := List.mem_map.1 mem
      refine SExpr.reads_list (List.forall_mem_cons.2 ⟨word (by decide), List.forall_mem_cons.2 ⟨?_,
        List.forall_mem_cons.2 ⟨?_, List.forall_mem_cons.2 ⟨sort d.1.1, List.forall_mem_singleton.2 ?_⟩⟩⟩⟩)
      · exact List.forall_mem_singleton.2 (reads_sharedName d.2)
      · exact SExpr.reads_list fun _ none => nomatch none
      · exact definitions d.1 (List.fst_mem_of_mem_zipIdx here)
  · obtain ⟨a, here, rfl⟩ := List.mem_map.1 mem
    exact SExpr.reads_list (List.forall_mem_cons.2 ⟨word (by decide), List.forall_mem_singleton.2 (asserts a here)⟩)

/-- The text of a script reads as the tokens of its commands, whatever the constraints. -/
theorem readTokens_ofConstraints (constraints : List Term) :
    readTokens (ofConstraints constraints).text = tokensAll (ofConstraints constraints).commands := by
  rw [text_eq]
  refine readTokens_join (reads_commands (fun d mem => ?_) fun a mem => ?_)
  · exact Draft.reads_foldl (d := {}) (List.forall_mem_nil _) _ _ d (List.mem_reverse.1 mem)
  · obtain ⟨t, -, rfl⟩ := List.mem_map.1 mem
    exact Term.reads_refer _ t

/-- The declared constants are those of the constraints. -/
theorem mem_declarations {constraints : List Term}
    (oneSort : ∀ name sort sort', (name, sort) ∈ Term.varsAll constraints →
      (name, sort') ∈ Term.varsAll constraints → sort = sort') (name : String) (sort : TermSort) :
    (name, sort) ∈ (ofConstraints constraints).declarations ↔ (name, sort) ∈ Term.varsAll constraints := by
  refine (Term.freeVars_distinct constraints).mem_entries.trans ⟨Term.mem_varsAll_of_freeVars, fun mem => ?_⟩
  obtain ⟨sort', found⟩ := Term.freeVars_of_mem_varsAll mem
  rwa [oneSort name sort sort' mem (Term.mem_varsAll_of_freeVars found)]

/-- Sharing is transparent, as long as every constant has one sort and no name of a definition. -/
theorem ofConstraints_transparent {constraints : List Term} (labelled : Labelled constraints)
    (oneSort : ∀ name sort sort', (name, sort) ∈ Term.varsAll constraints →
      (name, sort') ∈ Term.varsAll constraints → sort = sort')
    (apart : NamesApart constraints) : Transparent constraints (ofConstraints constraints) := by
  let draft := (Term.nodes constraints).foldl
    (Draft.define (Term.uses constraints (Term.nodes constraints))) {}
  have sound : draft.Sound constraints :=
    Draft.Sound.empty.foldl labelled apart (fun t mem => Term.below_of_mem_nodes mem) _
  have bodies : (ofConstraints constraints).bodies = draft.bodies := rfl
  have asserts : (ofConstraints constraints).asserts = constraints.map (Term.refer draft.names) := rfl
  have constant := mem_declarations oneSort
  refine
    { reads := readTokens_ofConstraints constraints
      defined := filterMap_definedName? _
      once := ?_
      before := sound.earlier
      known := ?_
      declared := constant
      declaredOnce := Term.freeVars_distinct constraints
      symbols := declaredSymbols_eq _
      itself := fun d _ => denoted_symbol_of_barless
      apart := ?_
      unfolds := ?_ }
  · rw [filterMap_definedName?]
    exact List.nodup_range.map fun j k same => sharedName_injective same
  · intro a mem j used
    obtain ⟨t, root, rfl⟩ := List.mem_map.1 mem
    rw [bodies, Draft.length_bodies]
    exact sound.shared apart (.root root) used
  · intro d mem k
    have other := apart d.1 d.2 ((constant d.1 d.2).1 mem)
    refine ⟨(Fixed.symbol other).other k, fun barless => ?_⟩
    rw [denoted_symbol_of_barless barless]
    exact other k
  · rw [bodies, asserts, List.map_map]
    exact List.map_congr_left fun t root => Term.putBack_refer apart sound.stands t (.root root)

section Nested

/-- A sum that is used twice, once below a comparison that is itself used twice. -/
def nestedSum : Term := .binary 2 (.bits .add) (.leaf 0 (.var "x" (.bitVec 32))) (.leaf 1 (.bitVec 1 32))

@[inherit_doc nestedSum]
def nestedLess : Term := .binary 4 (.compare .slt) nestedSum (.leaf 3 (.bitVec 10 32))

/-- A constraint that is an operand of the next one as well. -/
def nested : List Term := [nestedLess, .junction 7 .or [nestedLess, .binary 6 .eq nestedSum (.leaf 5 (.bitVec 0 32))]]

theorem ofConstraints_transparent_nested : Transparent nested (ofConstraints nested) ∧
    (ofConstraints nested).text =
      "(declare-const x (_ BitVec 32))\n" ++
      "(define-fun _t0 () (_ BitVec 32) (bvadd x (_ bv1 32)))\n" ++
      "(define-fun _t1 () Bool (bvslt _t0 (_ bv10 32)))\n" ++
      "(assert _t1)\n" ++
      "(assert (or _t1 (= _t0 (_ bv0 32))))\n" := by
  have labelled : Labelled nested := by
    let all := [.leaf 0 (.var "x" (.bitVec 32)), .leaf 1 (.bitVec 1 32), nestedSum, .leaf 3 (.bitVec 10 32), nestedLess,
      .leaf 5 (.bitVec 0 32), .binary 6 .eq nestedSum (.leaf 5 (.bitVec 0 32)),
      .junction 7 .or [nestedLess, .binary 6 .eq nestedSum (.leaf 5 (.bitVec 0 32))]]
    refine Term.Labelled.of_closed all ?_ ?_ (by decide)
    · simp [all, nested]
    · simp [all, nestedLess, nestedSum, Term.children]
  have constant : ∀ x ∈ Term.varsAll nested, x = ("x", .bitVec 32) := by decide
  have oneSort : ∀ name sort sort', (name, sort) ∈ Term.varsAll nested → (name, sort') ∈ Term.varsAll nested →
      sort = sort' := by
    intro name sort sort' mem mem'
    cases constant _ mem
    cases constant _ mem'
    rfl
  have apart : NamesApart nested := by
    intro name sort mem k same
    cases constant _ mem
    cases toList_sharedName k ▸ congrArg String.toList same
  refine ⟨ofConstraints_transparent labelled oneSort apart, ?_⟩
  simp [ofConstraints, nested, nestedLess, nestedSum, Term.nodes, Term.visitAll, Term.visit, Term.children, Term.label,
    Term.alike, Term.uses, Std.HashMap.getD_insert, Std.HashMap.getElem_insert, Draft.define, Term.refer, Term.referAll,
    Term.freeVars, Script.text]
  decide +kernel

end Nested

end Script
end SinkReach
