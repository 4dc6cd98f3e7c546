/-!
# Byte offsets

A place in a text is the number of bytes in front of it, in UTF-8.

* `byteLength` — how many bytes a list of characters takes; it adds up over
  `++`.
* `column?` — how many characters stand in front of a byte offset; an offset
  inside a character or past the end has none.
-/

namespace Abacus.Text

/-- The number of bytes of the characters `cs` in UTF-8. -/
def byteLength : List Char → Nat
  | [] => 0
  | c :: cs => c.utf8Size + byteLength cs

@[simp] theorem byteLength_nil : byteLength [] = 0 := rfl

@[simp] theorem byteLength_cons (c : Char) (cs : List Char) :
    byteLength (c :: cs) = c.utf8Size + byteLength cs := rfl

@[simp] theorem byteLength_append (as bs : List Char) :
    byteLength (as ++ bs) = byteLength as + byteLength bs := by
  induction as with
  | nil => simp
  | cons a as ih => simp [ih, Nat.add_assoc]

/-- The number of characters in front of the byte offset `position`, if it is
the start of a character or the end of the text. -/
def column? (position : Nat) : List Char → Option Nat
  | [] => if position = 0 then some 0 else none
  | c :: cs =>
    if position = 0 then some 0
    else if position < c.utf8Size then none
    else (column? (position - c.utf8Size) cs).map (· + 1)

/-- The end of the characters `as` is a place in every text that goes on after
them, and they are what stands in front of it. -/
theorem column?_byteLength (as bs : List Char) :
    column? (byteLength as) (as ++ bs) = some as.length := by
  induction as with
  | nil => cases bs <;> simp [column?]
  | cons a as ih =>
    have ha : 0 < a.utf8Size := a.utf8Size_pos
    have hz : a.utf8Size + byteLength as ≠ 0 := by omega
    have hl : ¬ a.utf8Size + byteLength as < a.utf8Size := by omega
    rw [List.cons_append, byteLength_cons, column?, if_neg hz, if_neg hl]
    simp [ih]

end Abacus.Text
