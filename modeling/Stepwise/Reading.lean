import Stepwise.Token.Basic

/-!
# Reading tokens from the front

What is built from tokens is built from the front of a list, and leaves the tokens behind it. A
`Reading` is such a result: a value, and an end of the list that was read. That the rest is an
end of the list is part of the type, so a function that goes on with the rest of a reading is
seen to come to an end.
-/

namespace Stepwise

/-- A value read from the front of `tokens`, and the tokens behind it. -/
structure Reading (α : Type) (tokens : List Token) where
  value : α
  rest : List Token
  rest_suffix : rest <:+ tokens

/-- A function that reads something from the front of any token list. -/
abbrev Reader (α : Type) := (tokens : List Token) → Reading α tokens

namespace Reading

variable {α β : Type} {tokens : List Token}

/-- A value for which nothing is read. -/
def stay (value : α) (tokens : List Token) : Reading α tokens :=
  ⟨value, tokens, List.suffix_refl tokens⟩

/-- A value for which the first token is read. -/
def skip (value : α) (t : Token) (tokens : List Token) : Reading α (t :: tokens) :=
  ⟨value, tokens, List.suffix_cons t tokens⟩

/-- Goes on behind what was read. -/
def andThen (r : Reading α tokens) (next : α → Reader β) :
    Reading β tokens :=
  let further := next r.value r.rest
  ⟨further.value, further.rest, further.rest_suffix.trans r.rest_suffix⟩

/-- The same reading with another value. -/
def map (f : α → β) (r : Reading α tokens) : Reading β tokens :=
  ⟨f r.value, r.rest, r.rest_suffix⟩

/-- The same reading of a list with a further token in front. -/
def behind (t : Token) (r : Reading α tokens) : Reading α (t :: tokens) :=
  ⟨r.value, r.rest, r.rest_suffix.trans (List.suffix_cons t tokens)⟩

theorem length_rest_le (r : Reading α tokens) : r.rest.length ≤ tokens.length :=
  r.rest_suffix.length_le

@[simp] theorem value_stay (value : α) (tokens : List Token) : (stay value tokens).value = value :=
  rfl

@[simp] theorem rest_stay (value : α) (tokens : List Token) : (stay value tokens).rest = tokens :=
  rfl

@[simp] theorem value_skip (value : α) (t : Token) (tokens : List Token) :
    (skip value t tokens).value = value := rfl

@[simp] theorem rest_skip (value : α) (t : Token) (tokens : List Token) :
    (skip value t tokens).rest = tokens := rfl

@[simp] theorem value_andThen (r : Reading α tokens)
    (next : α → Reader β) :
    (r.andThen next).value = (next r.value r.rest).value := rfl

@[simp] theorem rest_andThen (r : Reading α tokens)
    (next : α → Reader β) :
    (r.andThen next).rest = (next r.value r.rest).rest := rfl

@[simp] theorem value_map (f : α → β) (r : Reading α tokens) : (r.map f).value = f r.value := rfl

@[simp] theorem rest_map (f : α → β) (r : Reading α tokens) : (r.map f).rest = r.rest := rfl

@[simp] theorem value_behind (t : Token) (r : Reading α tokens) :
    (r.behind t).value = r.value := rfl

@[simp] theorem rest_behind (t : Token) (r : Reading α tokens) : (r.behind t).rest = r.rest := rfl

end Reading

end Stepwise
