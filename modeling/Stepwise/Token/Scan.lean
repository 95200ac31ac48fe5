import Stepwise.Token.Basic

/-!
# The tokens of a text

A text is cut into tokens from the front. At each place the patterns are tried in a fixed order,
the first that matches gives a token, as long as that pattern can make it, and where none matches
one character is passed over in silence. So no text is refused: blanks, stray characters and a
quote that nothing closes are simply not there.

A pattern is described by one number, how many characters in front of a list it takes, and zero
says that it does not match. What is taken and what is left are then `take` and `drop` of the
list, and that nothing is lost or made up needs no argument.

## Main definitions

* `Token.Pattern.all` — the patterns, in the order in which they are tried
* `Token.munch` — the length of the token in front of a text
* `Token.scan` — the tokens of a text
-/

namespace Stepwise

namespace Token

namespace Pattern

/-- `::`, which ends a statement. -/
def terminator : List Char → Nat
  | ':' :: ':' :: _ => 2
  | _ => 0

/-- A quote, anything but quotes, and a quote. Line ends may stand in between. -/
def quoted : List Char → Nat
  | '"' :: cs => if cs.contains '"' then (cs.takeWhile (· != '"')).length + 2 else 0
  | _ => 0

/-- The length of the run of digits in front. -/
def digits (cs : List Char) : Nat := (cs.takeWhile Char.isDigit).length

/-- Digits, and a point with digits after it if they are there. -/
def number (cs : List Char) : Nat :=
  let whole := digits cs
  if whole = 0 then 0
  else
    match cs.drop whole with
    | '.' :: rest => if digits rest = 0 then whole else whole + 1 + digits rest
    | _ => whole

/-- A relation of two characters. -/
def wideRelation : List Char → Nat
  | '<' :: '=' :: _ => 2
  | '<' :: '>' :: _ => 2
  | '>' :: '=' :: _ => 2
  | _ => 0

/-- One character out of a set. -/
def oneOf (set : List Char) : List Char → Nat
  | c :: _ => if set.contains c then 1 else 0
  | [] => 0

/-- The length of the word characters in front of a text that begins with one that may begin a
word. -/
def plainWord : List Char → Nat
  | c :: cs => if isWordStart c then (cs.takeWhile isWordPart).length + 1 else 0
  | [] => 0

/-- A word. The two words `end-if` and `end-while` have a hyphen in them, and they are words only
where no word character follows. -/
def word (cs : List Char) : Nat :=
  let plain := plainWord cs
  if cs.take plain = ['e', 'n', 'd'] then
    match cs.drop plain with
    | '-' :: rest =>
      let tail := rest.take (plainWord rest)
      if tail = ['i', 'f'] ∨ tail = ['w', 'h', 'i', 'l', 'e'] then plain + 1 + tail.length
      else plain
    | _ => plain
  else plain

/-- The patterns, in the order in which they are tried. -/
def all : List (List Char → Nat) :=
  [terminator, quoted, number, wideRelation, oneOf ['<', '>', '='], oneOf ['+', '-', '*', '/'],
    word, oneOf ['(', ')', ',']]

end Pattern

/-- The length of the token in front of a text, zero if no token begins there. -/
def munch (cs : List Char) : Nat :=
  match Pattern.all.find? fun pattern => pattern cs != 0 with
  | some pattern => pattern cs
  | none => 0

theorem munch_eq_getD (cs : List Char) :
    munch cs = ((Pattern.all.find? fun pattern => pattern cs != 0).map (· cs)).getD 0 := by
  rw [munch]
  cases Pattern.all.find? fun pattern => pattern cs != 0 <;> rfl

/-- The tokens of a text that begins at the given offset. -/
def scanFrom (offset : Nat) : List Char → List Token
  | [] => []
  | c :: cs =>
    match munch (c :: cs) with
    | 0 => scanFrom (offset + c.utf8Size) cs
    | n + 1 =>
      let lexeme := c :: cs.take n
      let stop := offset + Text.byteLength lexeme
      ofLexeme (String.ofList lexeme) ⟨offset, stop⟩ :: scanFrom stop (cs.drop n)
termination_by cs => cs.length
decreasing_by
  · simp only [List.length_cons]
    omega
  · simp only [List.length_drop, List.length_cons]
    omega

/-- The tokens of a text. -/
def scan (text : String) : List Token := scanFrom 0 text.toList

@[simp] theorem scanFrom_nil (offset : Nat) : scanFrom offset [] = [] := by simp [scanFrom]

theorem scanFrom_cons_of_munch_eq_zero {offset : Nat} {c : Char} {cs : List Char}
    (h : munch (c :: cs) = 0) : scanFrom offset (c :: cs) = scanFrom (offset + c.utf8Size) cs := by
  simp [scanFrom, h]

theorem scanFrom_cons_of_munch_eq_succ {offset n : Nat} {c : Char} {cs : List Char}
    (h : munch (c :: cs) = n + 1) :
    scanFrom offset (c :: cs) =
      ofLexeme (String.ofList (c :: cs.take n))
          ⟨offset, offset + Text.byteLength (c :: cs.take n)⟩ ::
        scanFrom (offset + Text.byteLength (c :: cs.take n)) (cs.drop n) := by
  simp [scanFrom, h]

/-- The listing of the tokens of a text: how many there are, an empty line, and a line for each. -/
def listing (text : String) : String :=
  let tokens := scan text
  tokens.foldl (fun out t => out ++ "\n" ++ t.display)
    ("tokens found: " ++ toString tokens.length ++ "\n")

end Token

end Stepwise
