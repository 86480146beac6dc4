import Mathlib.Data.List.Basic

/-! Parsers that accept exactly what a serialiser writes. -/

namespace Xq.Lib

variable {σ β ε : Type*} {store : σ → List β} {parse : List β → Except ε σ} {Valid : σ → Prop}
  {Follows : σ → List β → Prop}

/-- A serialiser and a parser that undo each other on valid structures. What may stand behind the
stored bytes can depend on the structure, as where it announces the length of its own payload. -/
structure ExactCoding (store : σ → List β) (parse : List β → Except ε σ) (Valid : σ → Prop)
    (Follows : σ → List β → Prop) : Prop where
  parse_store : ∀ s rest, Valid s → Follows s rest → parse (store s ++ rest) = .ok s
  store_parse : ∀ buf s, parse buf = .ok s →
    Valid s ∧ ∃ rest, Follows s rest ∧ buf = store s ++ rest

end Xq.Lib
