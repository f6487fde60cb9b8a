import Mathlib.Logic.Function.Iterate
import Mathlib.Tactic.SplitIfs
import SinkReach.Program.Type

/-!
Type names are read back. The types that the parser gives are those whose class names hold no blanks and
no brackets, are not empty and are not reserved; and the text of such a type is read as that type. A text is
accepted by what remains of it once it is trimmed and its trailing brackets are stripped.
-/
namespace SinkReach
namespace Text

theorem dropWhile_isBlank {cs : List Char} (h : ∀ c ∈ cs, isBlank c = false) :
    cs.dropWhile isBlank = cs := by
  cases cs with
  | nil => rfl
  | cons c cs => rw [List.dropWhile_cons, h c List.mem_cons_self, if_neg Bool.false_ne_true]

theorem trim_eq_self {cs : List Char} (h : ∀ c ∈ cs, isBlank c = false) : trim cs = cs := by
  have reversed : ∀ c ∈ cs.reverse, isBlank c = false := fun c hc => h c (List.mem_reverse.1 hc)
  rw [trim, dropWhile_isBlank h, dropWhile_isBlank reversed, List.reverse_reverse]

end Text

namespace Ty

variable {ty : Ty} {cs : List Char}

/-- Whether a text is a class name. -/
def isClassName (name : String) : Bool :=
  !name.toList.isEmpty && (name.toList.all fun c => !(Text.isBlank c || c == '[' || c == ']')) &&
    keywords.all fun ty => ty.text != name

/-- Whether some text spells the type. -/
def isSpelled : Ty → Bool
  | ref name => isClassName name
  | array element => element.isSpelled
  | _ => true

theorem isSpelled_of_mem_keywords : ∀ ty ∈ keywords, ty.isSpelled := by decide

theorem ofName_of_mem_keywords (h : ty ∈ keywords) : ofName ty.text.toList = .ok ty := by
  have first : ∀ ty ∈ keywords, (keywords.find? fun other => other.text == ty.text) = some ty := by decide
  simp only [ofName, String.ofList_toList, first ty h]

theorem text_of_mem_keywords :
    ∀ ty ∈ keywords, ∀ c ∈ ty.text.toList, Text.isBlank c = false ∧ c ≠ ']' := by
  simp [keywords, text, Text.isBlank]

theorem isClassName_iff {name : String} : isClassName name ↔
    name.toList ≠ [] ∧ (∀ c ∈ name.toList, Text.isBlank c = false ∧ c ≠ '[' ∧ c ≠ ']') ∧
      ∀ ty ∈ keywords, ty.text ≠ name := by
  simp [isClassName, and_assoc]

theorem isBlank_brackets : ∀ c ∈ ['[', ']'], Text.isBlank c = false := by
  simp [Text.isBlank]

/-- No blank stands in the text of a type that some text spells. -/
theorem isBlank_text (h : ty.isSpelled) : ∀ c ∈ ty.text.toList, Text.isBlank c = false := by
  induction ty with
  | ref name => exact fun c hc => ((isClassName_iff.1 h).2.1 c hc).1
  | array element ih =>
    rw [text, String.toList_append]
    exact List.forall_mem_append.2 ⟨ih h, isBlank_brackets⟩
  | _ => exact fun c hc => (text_of_mem_keywords _ (by decide) c hc).1

theorem parseChars_brackets (blank : ∀ c ∈ cs, Text.isBlank c = false) :
    parseChars (cs ++ ['[', ']']) = (parseChars cs).map array := by
  have trimmed : Text.trim (cs ++ ['[', ']']) = cs ++ ['[', ']'] :=
    Text.trim_eq_self (List.forall_mem_append.2 ⟨blank, isBlank_brackets⟩)
  rw [parseChars, trimmed]
  split
  next rest h =>
    have rest_eq : cs.reverse = rest := by simpa using h
    rw [← rest_eq, List.reverse_reverse]
  next h => exact absurd (by rw [List.reverse_append]; rfl) (h cs.reverse)

theorem parseChars_name (h : ∀ c ∈ cs, Text.isBlank c = false ∧ c ≠ ']') :
    parseChars cs = ofName cs := by
  rw [parseChars, Text.trim_eq_self fun c hc => (h c hc).1]
  split
  next rest ends =>
    have last : ']' ∈ cs := List.mem_reverse.1 (ends ▸ List.mem_cons_self)
    exact absurd rfl (h _ last).2
  next => rfl

theorem ofName_className {name : String} (h : isClassName name) : ofName name.toList = .ok (ref name) := by
  obtain ⟨nonempty, plain, free⟩ := isClassName_iff.1 h
  have unreserved : (keywords.find? fun ty => ty.text == String.ofList name.toList) = none := by
    rw [List.find?_eq_none, String.ofList_toList]
    exact fun ty hty => by simpa using free ty hty
  have unmarked : (name.toList.any fun c => Text.isBlank c || c == '[' || c == ']') = false := by
    simpa [and_assoc] using plain
  rw [ofName, unreserved, unmarked, List.isEmpty_eq_false_iff.2 nonempty, String.ofList_toList]
  rfl

/-- The text of a type is read as that type. -/
theorem parse_text (h : ty.isSpelled) : parse ty.text = .ok ty := by
  induction ty with
  | ref name =>
    have plain := (isClassName_iff.1 h).2.1
    exact (parseChars_name fun c hc => ⟨(plain c hc).1, (plain c hc).2.2⟩).trans (ofName_className h)
  | array element ih =>
    calc parse (array element).text
      _ = parseChars (element.text.toList ++ ['[', ']']) := by rw [parse, text, String.toList_append]; rfl
      _ = (parse element.text).map array := parseChars_brackets (isBlank_text h)
      _ = .ok (array element) := by rw [ih h]; rfl
  | _ =>
    exact (parseChars_name (text_of_mem_keywords _ (by decide))).trans
      (ofName_of_mem_keywords (by decide))

theorem isSpelled_of_ofName (h : ofName cs = .ok ty) : ty.isSpelled := by
  rw [ofName] at h
  split at h
  next found =>
    cases h
    exact isSpelled_of_mem_keywords _ (List.mem_of_find?_eq_some found)
  next unreserved =>
    split_ifs at h with empty marked
    cases h
    rw [List.find?_eq_none] at unreserved
    refine isClassName_iff.2 ⟨?_, ?_, ?_⟩
    · simpa using empty
    · simpa [and_assoc] using marked
    · simpa using unreserved

theorem isSpelled_of_parseChars (h : parseChars cs = .ok ty) : ty.isSpelled := by
  fun_induction parseChars cs generalizing ty with
  | case1 cs rest ends ih =>
    cases element : parseChars rest.reverse with
    | error e => rw [element] at h; cases h
    | ok element' =>
      rw [element] at h
      cases h
      have inner := ih element
      exact inner
  | case2 cs h' => exact isSpelled_of_ofName h

theorem isSpelled_iff : ty.isSpelled ↔ ∃ s, parse s = .ok ty :=
  ⟨fun h => ⟨ty.text, parse_text h⟩, fun ⟨_, h⟩ => isSpelled_of_parseChars h⟩

/-- Class names in a type. -/
def classNames : Ty → List String
  | ref name => [name]
  | array element => element.classNames
  | _ => []

theorem isSpelled_of_classNames (h : ∀ name ∈ ty.classNames, isClassName name) : ty.isSpelled := by
  induction ty with
  | ref name => exact h name (List.mem_singleton_self name)
  | array element ih => exact ih h
  | _ => rfl

section Stripping

variable {name : List Char} {k : Nat}

/-- The text is trimmed, and while it ends in a pair of brackets that is stripped off and the rest is trimmed
again; so many pairs are stripped, and the name remains. -/
inductive Strips : List Char → Nat → List Char → Prop
  | name {cs : List Char} : ¬ ['[', ']'] <:+ Text.trim cs → Strips cs 0 (Text.trim cs)
  | pair {cs rest name : List Char} {k : Nat} : Text.trim cs = rest ++ ['[', ']'] → Strips rest k name →
    Strips cs (k + 1) name

theorem trim_eq_of_reverse {rest : List Char} (h : (Text.trim cs).reverse = ']' :: '[' :: rest) :
    Text.trim cs = rest.reverse ++ ['[', ']'] := by
  rw [← List.reverse_reverse (Text.trim cs), h, List.reverse_cons, List.reverse_cons, List.append_assoc]
  rfl

theorem exists_strips (cs : List Char) : ∃ k name, Strips cs k name := by
  fun_induction parseChars cs with
  | case1 cs rest ends ih =>
    obtain ⟨k, name, strips⟩ := ih
    exact ⟨k + 1, name, .pair (trim_eq_of_reverse ends) strips⟩
  | case2 cs other =>
    refine ⟨0, Text.trim cs, .name ?_⟩
    rintro ⟨rest, ends⟩
    refine other rest.reverse ?_
    rw [← ends, List.reverse_append]
    rfl

/-- What is read is the name that remains, as an array for each pair of brackets. -/
theorem Strips.parseChars (h : Strips cs k name) : parseChars cs = (ofName name).map array^[k] := by
  induction h with
  | @name cs bare =>
    rw [Ty.parseChars]
    split
    next rest ends => exact absurd ⟨rest.reverse, (trim_eq_of_reverse ends).symm⟩ bare
    next =>
      cases ofName (Text.trim cs) <;> rfl
  | @pair cs rest name k ends _ ih =>
    rw [Ty.parseChars]
    split
    next rest' ends' =>
      have same : rest'.reverse = rest := List.append_cancel_right ((trim_eq_of_reverse ends').symm.trans ends)
      rw [same, ih]
      cases ofName name with
      | error e => rfl
      | ok ty => exact congrArg Except.ok (Function.iterate_succ_apply' array k ty).symm
    next other =>
      refine absurd ?_ (other rest.reverse)
      rw [ends, List.reverse_append]
      rfl

theorem toList_text_iterate_array (k : Nat) (ty : Ty) :
    (array^[k] ty).text.toList = ty.text.toList ++ (List.replicate k ['[', ']']).flatten := by
  induction k generalizing ty with
  | zero => exact (List.append_nil _).symm
  | succ k ih =>
    rw [Function.iterate_succ_apply, ih, text, String.toList_append, List.append_assoc, List.replicate_succ,
      List.flatten_cons]
    rfl

theorem toList_text_of_ofName (h : ofName name = .ok ty) : ty.text.toList = name := by
  rw [ofName] at h
  split at h
  next found =>
    cases h
    have spelled := List.find?_some found
    rw [beq_iff_eq] at spelled
    rw [spelled, String.toList_ofList]
  next =>
    split_ifs at h
    cases h
    exact String.toList_ofList

/-- A name is that of a type if something remains of it and no blank or bracket stands in it. -/
theorem exists_ofName_iff : (∃ ty, ofName name = .ok ty) ↔
    name ≠ [] ∧ ∀ c ∈ name, Text.isBlank c = false ∧ c ≠ '[' ∧ c ≠ ']' := by
  rw [ofName]
  split
  next ty found =>
    have reserved := List.mem_of_find?_eq_some found
    have spelled := List.find?_some found
    rw [beq_iff_eq] at spelled
    have plain : ∀ ty ∈ keywords, ty.text.toList ≠ [] ∧
        ∀ c ∈ ty.text.toList, Text.isBlank c = false ∧ c ≠ '[' ∧ c ≠ ']' := by
      simp [keywords, text, Text.isBlank]
    have here := plain ty reserved
    rw [spelled, String.toList_ofList] at here
    exact ⟨fun _ => here, fun _ => ⟨ty, rfl⟩⟩
  next =>
    have marked : (name.any fun c => Text.isBlank c || c == '[' || c == ']') = false ↔
        ∀ c ∈ name, Text.isBlank c = false ∧ c ≠ '[' ∧ c ≠ ']' := by
      simp [and_assoc]
    rw [← marked, ← List.isEmpty_eq_false_iff]
    cases name.isEmpty <;> cases name.any fun c => Text.isBlank c || c == '[' || c == ']' <;> simp

end Stripping

/-- Type names and types correspond. The text of a type that was read is read as that type; so is the text of
every type whose class names hold no blanks and no brackets, are not empty and are not reserved; and a text is
accepted if and only if, of what remains of it without surrounding blanks and trailing brackets, there is
something, and no blank or bracket in it: it is then a type whose text is what remains and the brackets. -/
theorem parse_text_corresponds :
    (∀ (s : String) (ty : Ty), parse s = .ok ty → parse ty.text = .ok ty) ∧
    (∀ ty : Ty, (∀ name ∈ ty.classNames, name ≠ "" ∧
      (∀ c ∈ name.toList, Text.isBlank c = false ∧ c ≠ '[' ∧ c ≠ ']') ∧ name ∉ keywords.map text) →
      parse ty.text = .ok ty) ∧
    ∀ s : String, (∃ k name, Strips s.toList k name) ∧ ∀ k name, Strips s.toList k name →
      ((∃ ty, parse s = .ok ty) ↔ name ≠ [] ∧ ∀ c ∈ name, Text.isBlank c = false ∧ c ≠ '[' ∧ c ≠ ']') ∧
      ∀ ty, parse s = .ok ty → ty.text.toList = name ++ (List.replicate k ['[', ']']).flatten := by
  refine ⟨fun s ty h => parse_text (isSpelled_of_parseChars h), fun ty h => ?_,
    fun s => ⟨exists_strips s.toList, fun k name strips => ?_⟩⟩
  · refine parse_text (isSpelled_of_classNames fun name mem => isClassName_iff.2 ?_)
    obtain ⟨some, plain, free⟩ := h name mem
    refine ⟨fun none => some (String.toList_eq_nil_iff.1 none), plain, fun ty reserved same => ?_⟩
    exact free (List.mem_map.2 ⟨ty, reserved, same⟩)
  · have read : parse s = (ofName name).map array^[k] := strips.parseChars
    refine ⟨?_, fun ty h => ?_⟩
    · rw [← exists_ofName_iff, read]
      cases ofName name with
      | error e => exact ⟨fun ⟨_, h⟩ => (nomatch h), fun ⟨_, h⟩ => (nomatch h)⟩
      | ok base => exact ⟨fun _ => ⟨base, rfl⟩, fun _ => ⟨_, rfl⟩⟩
    · rw [read] at h
      cases base : ofName name with
      | error e =>
        rw [base] at h
        cases h
      | ok ty' =>
        rw [base] at h
        cases h
        rw [toList_text_iterate_array, toList_text_of_ofName base]

end Ty
end SinkReach
