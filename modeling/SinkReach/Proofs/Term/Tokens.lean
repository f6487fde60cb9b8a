import Std.Data.String.ToNat
import SinkReach.Term.Script

/-!
Scripts as sequences of tokens: parentheses, symbols between bars, and words. Reading the text of an
S-expression gives its tokens, as long as every one of them reads as itself; operators, numerals, symbols of
constants and names of shared definitions do.
-/
namespace SinkReach

/-- Name of a shared definition. -/
def sharedName (k : Nat) : String := "_t" ++ toString k

theorem sharedName_injective {j k : Nat} (h : sharedName j = sharedName k) : j = k :=
  Nat.repr_injective ((String.append_right_inj _).1 h)

namespace SExpr

mutual

/-- Tokens of the expression, definitions by their names. -/
def tokens : SExpr → List String
  | atom token => [token]
  | shared k => [sharedName k]
  | list items => "(" :: tokensAll items ++ [")"]

def tokensAll : List SExpr → List String
  | [] => []
  | s :: ss => s.tokens ++ tokensAll ss

end

@[simp] theorem tokensAll_append (ss ss' : List SExpr) : tokensAll (ss ++ ss') = tokensAll ss ++ tokensAll ss' := by
  induction ss with
  | nil => rfl
  | cons s ss ih => simp only [List.cons_append, tokensAll, ih, List.append_assoc]

theorem mem_tokensAll {tok : String} {ss : List SExpr} : tok ∈ tokensAll ss ↔ ∃ s ∈ ss, tok ∈ s.tokens := by
  induction ss with
  | nil => simp [tokensAll]
  | cons s ss ih => simp [tokensAll, ih]

theorem tokens_list_append (ss ss' : List SExpr) :
    (list (ss ++ ss')).tokens = ["("] ++ (tokensAll ss ++ tokensAll ss') ++ [")"] := by
  rw [tokens, tokensAll_append]
  rfl

theorem mem_tokens_list {tok : String} {items : List SExpr} :
    tok ∈ (list items).tokens ↔ tok = "(" ∨ tok = ")" ∨ ∃ s ∈ items, tok ∈ s.tokens := by
  rw [← mem_tokensAll, tokens, List.mem_append, List.mem_cons, List.mem_singleton]
  exact or_assoc.trans (or_congr_right or_comm)

theorem forall_tokens_list {P : String → Prop} (opening : P "(") (closing : P ")") {items : List SExpr}
    (h : ∀ s ∈ items, ∀ tok ∈ s.tokens, P tok) : ∀ tok ∈ (list items).tokens, P tok := by
  intro tok mem
  rcases mem_tokens_list.1 mem with rfl | rfl | ⟨s, item, mem⟩
  · exact opening
  · exact closing
  · exact h s item tok mem

end SExpr

section Reading

/-- Characters of words. -/
def isWordChar (c : Char) : Bool := !(c.isWhitespace || c == '(' || c == ')' || c == '|')

/-- The word that ends here, if there is one. -/
def wordOf (word : List Char) : List String := if word.isEmpty then [] else [String.ofList word]

/-- Tokens of a text, of whose first one some characters were read, after a bar or not. -/
def scan (word : List Char) (quoted : Bool) : List Char → List String
  | [] => wordOf word
  | c :: cs =>
    if quoted then
      if c = '|' then String.ofList (word ++ [c]) :: scan [] false cs else scan (word ++ [c]) true cs
    else if c = '|' then wordOf word ++ scan ['|'] true cs
    else if c = '(' ∨ c = ')' then wordOf word ++ String.ofList [c] :: scan [] false cs
    else if c.isWhitespace then wordOf word ++ scan [] false cs
    else scan (word ++ [c]) false cs

def readTokens (text : String) : List String := scan [] false text.toList

variable {cs rest word : List Char} {tok : String}

/-- No word goes on here. -/
def Ends (rest : List Char) : Prop := ∀ c ∈ rest.head?, c = ' ' ∨ c = '\n' ∨ c = '(' ∨ c = ')'

/-- The token is read as such where no word goes on. -/
def Reads (tok : String) : Prop :=
  ∀ rest, Ends rest → scan [] false (tok.toList ++ rest) = tok :: scan [] false rest

theorem scan_space (rest : List Char) : scan [] false (' ' :: rest) = scan [] false rest := rfl

theorem scan_newline (rest : List Char) : scan [] false ('\n' :: rest) = scan [] false rest := rfl

theorem scan_open (rest : List Char) : scan [] false ('(' :: rest) = "(" :: scan [] false rest := rfl

theorem scan_close (rest : List Char) : scan [] false (')' :: rest) = ")" :: scan [] false rest := rfl

theorem scan_ends (h : Ends rest) (word : List Char) : scan word false rest = wordOf word ++ scan [] false rest := by
  cases rest with
  | nil => simp [scan, wordOf]
  | cons c cs =>
    rcases h c rfl with rfl | rfl | rfl | rfl <;> rfl

theorem scan_word (h : ∀ c ∈ cs, isWordChar c = true) (word rest : List Char) :
    scan word false (cs ++ rest) = scan (word ++ cs) false rest := by
  induction cs generalizing word with
  | nil => rw [List.nil_append, List.append_nil]
  | cons c cs ih =>
    obtain ⟨first, others⟩ := List.forall_mem_cons.1 h
    simp only [isWordChar, Bool.not_eq_true', Bool.or_eq_false_iff, beq_eq_false_iff_ne] at first
    obtain ⟨⟨⟨space, opening⟩, closing⟩, bar⟩ := first
    rw [List.cons_append, scan]
    simp only [Bool.false_eq_true, if_false, bar, opening, closing, or_self, space]
    rw [ih others, List.append_assoc, List.singleton_append]

theorem reads_word (some : tok.toList ≠ []) (h : ∀ c ∈ tok.toList, isWordChar c = true) : Reads tok := by
  intro rest ends
  have word : wordOf tok.toList = [tok] := by
    rw [wordOf, if_neg (by simpa using some), String.ofList_toList]
  rw [scan_word h, List.nil_append, scan_ends ends, word]
  rfl

theorem scan_quoted (h : '|' ∉ cs) (word rest : List Char) :
    scan word true (cs ++ '|' :: rest) = String.ofList (word ++ cs ++ ['|']) :: scan [] false rest := by
  induction cs generalizing word with
  | nil => simp [scan]
  | cons c cs ih =>
    obtain ⟨first, others⟩ := not_or.1 fun mem => h (List.mem_cons.2 mem)
    rw [List.cons_append, scan, if_pos rfl, if_neg (Ne.symm first), ih others, List.append_cons word c cs]

theorem reads_quoted (h : '|' ∉ cs) : Reads ("|" ++ String.ofList cs ++ "|") := by
  intro rest _
  have text : ("|" ++ String.ofList cs ++ "|").toList ++ rest = '|' :: (cs ++ '|' :: rest) := by
    simp [String.toList_append]
  rw [text]
  show scan ['|'] true (cs ++ '|' :: rest) = _
  rw [scan_quoted h]
  congr 1
  rw [← String.toList_inj]
  simp [String.toList_append]

theorem isWordChar_of_simple {c : Char} (h : (c.isAlphanum || symbolMarks.contains c) = true) :
    isWordChar c = true := by
  refine Bool.of_not_eq_false fun separates => ?_
  simp only [isWordChar, Char.isWhitespace, Bool.not_eq_false', Bool.or_eq_true, beq_iff_eq, decide_eq_true_eq]
    at separates
  rcases separates with (((((rfl | rfl) | rfl) | rfl) | rfl) | rfl) | rfl <;> revert h <;> decide

theorem reads_symbol (name : String) : Reads (symbol name) := by
  unfold symbol
  split
  next simple =>
    simp only [isSimpleSymbol, Bool.and_eq_true, Bool.not_eq_true', List.all_eq_true] at simple
    obtain ⟨⟨some, -⟩, marks⟩ := simple
    exact reads_word (by simpa using some) fun c mem => isWordChar_of_simple (marks c mem)
  next =>
    refine reads_quoted fun bar => ?_
    obtain ⟨c, -, same⟩ := List.mem_map.1 bar
    split at same
    next => cases same
    next other => exact other (.inl same)

theorem isDigit_toString (n : Nat) : ∀ c ∈ (toString n).toList, c.isDigit = true := by
  intro c mem
  refine Nat.isDigit_of_mem_toDigits (b := 10) (n := n) (by decide) (by decide) ?_
  rwa [← Nat.toList_repr]

theorem toString_ne_nil (n : Nat) : (toString n).toList ≠ [] := by
  rw [show (toString n).toList = Nat.toDigits 10 n from Nat.toList_repr]
  exact Nat.toDigits_ne_nil

/-- A number behind a word, which may be empty. -/
theorem reads_numbered {start : String} (h : start.toList.all isWordChar = true) (n : Nat) :
    Reads (start ++ toString n) := by
  rw [List.all_eq_true] at h
  refine reads_word ?_ fun c mem => ?_
  · rw [String.toList_append]
    exact List.append_ne_nil_of_right_ne_nil _ (toString_ne_nil n)
  · rw [String.toList_append] at mem
    rcases List.mem_append.1 mem with front | digit
    · exact h c front
    · refine isWordChar_of_simple ?_
      rw [Char.isAlphanum, isDigit_toString n c digit, Bool.or_true, Bool.true_or]

theorem reads_sharedName (k : Nat) : Reads (sharedName k) := reads_numbered (by decide) k

theorem toList_sharedName (k : Nat) : (sharedName k).toList = '_' :: 't' :: (toString k).toList := by
  rw [sharedName, String.toList_append]
  rfl

end Reading

/-- A token that reads as itself and is no name of a definition. -/
structure Fixed (tok : String) : Prop where
  reads : Reads tok
  other : ∀ k, tok ≠ sharedName k

/-- A word that does not start as the names of definitions do. -/
def isFixedWord (tok : String) : Bool :=
  !tok.toList.isEmpty && tok.toList.all isWordChar && !(['_', 't'].isPrefixOf tok.toList)

namespace Fixed

theorem opening : Fixed "(" where
  reads rest _ := scan_open rest
  other k same := by simpa [toList_sharedName] using congrArg String.toList same

theorem closing : Fixed ")" where
  reads rest _ := scan_close rest
  other k same := by simpa [toList_sharedName] using congrArg String.toList same

theorem word {tok : String} (h : isFixedWord tok = true) : Fixed tok := by
  simp only [isFixedWord, Bool.and_eq_true, Bool.not_eq_true', List.isEmpty_eq_false_iff, List.all_eq_true] at h
  obtain ⟨⟨some, chars⟩, start⟩ := h
  refine ⟨reads_word some chars, ?_⟩
  rintro k rfl
  rw [toList_sharedName] at start
  cases start

theorem numeral (n : Nat) : Fixed (toString n) := by
  have reads : Reads ("" ++ toString n) := reads_numbered rfl n
  rw [String.empty_append] at reads
  refine ⟨reads, fun k same => ?_⟩
  have digit := isDigit_toString n '_' (by rw [same, toList_sharedName]; exact List.mem_cons_self)
  cases digit

/-- Bit-vector literals. -/
theorem bits (n : Nat) : Fixed ("bv" ++ toString n) := by
  refine ⟨reads_numbered (by decide) n, fun k same => ?_⟩
  have lists := congrArg String.toList same
  rw [String.toList_append, toList_sharedName] at lists
  cases lists

theorem symbol {name : String} (other : ∀ k, name ≠ sharedName k) : Fixed (symbol name) := by
  refine ⟨reads_symbol name, fun k same => ?_⟩
  unfold SinkReach.symbol at same
  split at same
  · exact other k same
  · have lists := congrArg String.toList same
    simp [String.toList_append, toList_sharedName] at lists

end Fixed

namespace SExpr

mutual

/-- The text of an expression reads as its tokens. -/
theorem scan_text : (s : SExpr) → (∀ tok ∈ s.tokens, Reads tok) → ∀ rest, Ends rest →
    scan [] false (s.text.toList ++ rest) = s.tokens ++ scan [] false rest
  | atom token, reads, rest, ends => reads token (List.mem_singleton_self _) rest ends
  | shared k, reads, rest, ends => reads (sharedName k) (List.mem_singleton_self _) rest ends
  | list items, reads, rest, ends => by
    have inner : ∀ tok ∈ tokensAll items, Reads tok := fun tok mem =>
      reads tok (List.mem_cons_of_mem _ (List.mem_append_left _ mem))
    have closing : Ends (')' :: rest) := fun c here => .inr (.inr (.inr (Option.some.inj here).symm))
    have text : (list items).text.toList ++ rest = '(' :: ((textAll items).toList ++ ')' :: rest) := by
      simp [SExpr.text, String.toList_append]
    rw [text, scan_open, scan_textAll items inner _ closing, scan_close, tokens]
    simp only [List.cons_append, List.append_assoc, List.nil_append]

theorem scan_textAll : (ss : List SExpr) → (∀ tok ∈ tokensAll ss, Reads tok) → ∀ rest, Ends rest →
    scan [] false ((textAll ss).toList ++ rest) = tokensAll ss ++ scan [] false rest
  | [], _, rest, _ => rfl
  | [s], reads, rest, ends => by
    rw [tokensAll, tokensAll, List.append_nil]
    exact scan_text s (fun tok mem => reads tok (List.mem_append_left _ mem)) rest ends
  | s :: s' :: ss, reads, rest, ends => by
    have text : (textAll (s :: s' :: ss)).toList ++ rest =
        s.text.toList ++ (' ' :: ((textAll (s' :: ss)).toList ++ rest)) := by
      simp [textAll, String.toList_append]
    have space : Ends (' ' :: ((textAll (s' :: ss)).toList ++ rest)) :=
      fun c here => .inl (Option.some.inj here).symm
    rw [text, scan_text s (fun tok mem => reads tok (List.mem_append_left _ mem)) _ space, scan_space,
      scan_textAll (s' :: ss) (fun tok mem => reads tok (List.mem_append_right _ mem)) rest ends, ← List.append_assoc]
    rfl

end

/-- No token is the name of a definition. -/
def IsFixed (s : SExpr) : Prop := ∀ tok ∈ s.tokens, Fixed tok

theorem isFixed_atom {token : String} (h : Fixed token) : (atom token).IsFixed := List.forall_mem_singleton.2 h

theorem isFixed_list {items : List SExpr} (h : ∀ s ∈ items, s.IsFixed) : (list items).IsFixed :=
  forall_tokens_list .opening .closing h

theorem reads_list {items : List SExpr} (h : ∀ s ∈ items, ∀ tok ∈ s.tokens, Reads tok) :
    ∀ tok ∈ (list items).tokens, Reads tok :=
  forall_tokens_list Fixed.opening.reads Fixed.closing.reads h

theorem isFixed_indexed {name : String} (h : Fixed name) (ns : List Nat) : (indexed name ns).IsFixed := by
  refine isFixed_list fun s mem => ?_
  rcases List.mem_cons.1 mem with rfl | mem
  · exact isFixed_atom (.word (by decide))
  rcases List.mem_cons.1 mem with rfl | mem
  · exact isFixed_atom h
  · obtain ⟨n, -, rfl⟩ := List.mem_map.1 mem
    exact isFixed_atom (.numeral n)

end SExpr

open SExpr (atom indexed isFixed_atom isFixed_indexed isFixed_list)

/-- The sort as an S-expression. -/
def TermSort.sexpr : TermSort → SExpr
  | bool => atom "Bool"
  | bitVec w => indexed "BitVec" [w]
  | float f => indexed "FloatingPoint" [f.exponent, f.significand]
  | array i e => .list [atom "Array", i.sexpr, e.sexpr]

theorem TermSort.text_sexpr (s : TermSort) : s.sexpr.text = s.text := by
  rw [← String.toList_inj]
  induction s with
  | bool => rfl
  | bitVec w =>
    show (indexed "BitVec" [w]).text.toList = ("(_ BitVec " ++ toString w ++ ")").toList
    simp only [indexed, List.map, SExpr.text, SExpr.textAll, String.toList_append, List.append_assoc]
    rfl
  | float f =>
    show (indexed "FloatingPoint" [f.exponent, f.significand]).text.toList =
      ("(_ FloatingPoint " ++ toString f.exponent ++ " " ++ toString f.significand ++ ")").toList
    simp only [indexed, List.map, SExpr.text, SExpr.textAll, String.toList_append, List.append_assoc]
    rfl
  | array i e ihi ihe =>
    show (SExpr.list [atom "Array", i.sexpr, e.sexpr]).text.toList =
      ("(Array " ++ i.text ++ " " ++ e.text ++ ")").toList
    simp only [SExpr.text, SExpr.textAll, String.toList_append, ihi, ihe, List.append_assoc]
    rfl

theorem TermSort.isFixed_sexpr (s : TermSort) : s.sexpr.IsFixed := by
  induction s with
  | bool => exact isFixed_atom (.word (by decide))
  | bitVec w => exact isFixed_indexed (.word (by decide)) _
  | float f => exact isFixed_indexed (.word (by decide)) _
  | array i e ihi ihe =>
    simp only [sexpr]
    refine isFixed_list fun s mem => ?_
    simp only [List.mem_cons, List.not_mem_nil, or_false] at mem
    rcases mem with rfl | rfl | rfl
    · exact isFixed_atom (.word (by decide))
    · exact ihi
    · exact ihe

namespace Term

theorem UnaryOp.isFixed_head (op : UnaryOp) : ∀ s ∈ op.head, s.IsFixed := by
  have rounded {f : FloatFormat} {mode : String} (h : isFixedWord mode = true) {s : SExpr}
      (mem : s ∈ [indexed "to_fp" [f.exponent, f.significand], atom mode]) : s.IsFixed := by
    rcases List.mem_cons.1 mem with rfl | mem
    · exact isFixed_indexed (.word (by decide)) _
    · exact List.mem_singleton.1 mem ▸ isFixed_atom (.word h)
  intro s mem
  cases op with
  | signExtend | zeroExtend | extract =>
    exact List.mem_singleton.1 mem ▸ isFixed_indexed (.word (by decide)) _
  | fpToFp | bvToFp => exact rounded (by decide) mem
  | fpToSbv w =>
    rcases List.mem_cons.1 mem with rfl | mem
    · exact isFixed_indexed (.word (by decide)) _
    · exact List.mem_singleton.1 mem ▸ isFixed_atom (.word (by decide))
  | not | fpNeg | fpIsNaN => exact List.mem_singleton.1 mem ▸ isFixed_atom (.word (by decide))
  | bits op =>
    cases op <;> exact List.mem_singleton.1 mem ▸ isFixed_atom (.word (by decide))

theorem BinaryOp.isFixed_head (op : BinaryOp) : ∀ s ∈ op.head, s.IsFixed := by
  intro s mem
  have known : s.tokens.all isFixedWord = true := by
    cases op with
    | xor | eq | select => cases List.mem_singleton.1 mem; decide
    | bits op => cases op <;> cases List.mem_singleton.1 mem <;> decide
    | compare op => cases op <;> cases List.mem_singleton.1 mem <;> decide
    | fpCompare op => cases op <;> cases List.mem_singleton.1 mem <;> decide
    | fp op =>
      cases op with
      | rem => cases List.mem_singleton.1 mem; decide
      | add | sub | mul | div =>
        rcases List.mem_cons.1 mem with rfl | mem
        · decide
        · cases List.mem_singleton.1 mem; decide
  exact fun tok here => .word (List.all_eq_true.1 known tok here)

/-- Literals, and constants whose names are not those of definitions. -/
theorem Atom.isFixed_sexpr (a : Atom) (h : ∀ name sort, a = .var name sort → ∀ k, name ≠ sharedName k) :
    a.sexpr.IsFixed := by
  cases a with
  | bool b => cases b <;> exact isFixed_atom (.word (by decide))
  | bitVec n w => exact isFixed_indexed (.bits n) _
  | float n f =>
    refine isFixed_list fun s mem => ?_
    rcases List.mem_cons.1 mem with rfl | mem
    · exact isFixed_indexed (.word (by decide)) _
    · exact List.mem_singleton.1 mem ▸ isFixed_indexed (.bits n) _
  | var name sort => exact isFixed_atom (.symbol (h name sort rfl))

end Term
end SinkReach
