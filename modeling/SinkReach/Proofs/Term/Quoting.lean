import SinkReach.Proofs.Term.Tokens

/-!
Symbols of constants, with bars or without. Bars around a symbol are no part of its name, and between them a name
can have neither bars nor backslashes, which become underscores; other names are printed as they are. So a name
without these characters is printed as a symbol of itself.
-/
namespace SinkReach

/-- What stands between bars for a character. -/
def barredChar (c : Char) : Char := if c = '|' ∨ c = '\\' then '_' else c

/-- The name as it is printed between bars. -/
def barred (name : String) : String := String.ofList (name.toList.map barredChar)

/-- Name of the constant that a symbol denotes. -/
def denoted (sym : String) : String :=
  match sym.toList with
  | '|' :: cs => String.ofList cs.dropLast
  | _ => sym

/-- A name without bars and backslashes. -/
def Barless (name : String) : Prop := ∀ c ∈ name.toList, c ≠ '|' ∧ c ≠ '\\'

section Barred

variable {name : String}

theorem toList_barred (name : String) : (barred name).toList = name.toList.map barredChar := String.toList_ofList

theorem barredChar_of_ne {c : Char} (h : c ≠ '|' ∧ c ≠ '\\') : barredChar c = c := if_neg (not_or.2 h)

theorem barred_of_barless (h : Barless name) : barred name = name := by
  rw [← String.toList_inj, toList_barred]
  exact (List.map_congr_left fun c mem => barredChar_of_ne (h c mem)).trans (List.map_id _)

/-- A simple symbol has neither bars nor backslashes. -/
theorem Barless.of_simple (h : isSimpleSymbol name = true) : Barless name := by
  simp only [isSimpleSymbol, Bool.and_eq_true, List.all_eq_true] at h
  intro c mem
  have simple := h.2 c mem
  constructor <;> rintro rfl <;> revert simple <;> decide

end Barred

section Symbol

variable {a b : String}

theorem symbol_eq (name : String) :
    symbol name = if isSimpleSymbol name then name else "|" ++ barred name ++ "|" := rfl

/-- A symbol denotes the name as it is printed between bars, bars or not. -/
theorem denoted_symbol (name : String) : denoted (symbol name) = barred name := by
  rw [symbol_eq]
  split
  next simple =>
    have barless := Barless.of_simple simple
    rw [barred_of_barless barless, denoted]
    split
    next cs text => exact absurd rfl (barless '|' (text ▸ List.mem_cons_self)).1
    next => rfl
  next =>
    have text : ("|" ++ barred name ++ "|").toList = '|' :: ((barred name).toList ++ ['|']) := by
      simp [String.toList_append]
    simp only [denoted, text, List.dropLast_concat, String.ofList_toList]

/-- A name without bars and backslashes is denoted by its symbol. -/
theorem denoted_symbol_of_barless (h : Barless a) : denoted (symbol a) = a := by
  rw [denoted_symbol, barred_of_barless h]

theorem denoted_symbol_inj : denoted (symbol a) = denoted (symbol b) ↔ barred a = barred b := by
  rw [denoted_symbol, denoted_symbol]

theorem denoted_symbol_ne (ha : Barless a) (hb : Barless b) (other : a ≠ b) :
    denoted (symbol a) ≠ denoted (symbol b) := by
  rwa [denoted_symbol_of_barless ha, denoted_symbol_of_barless hb]

end Symbol

end SinkReach
