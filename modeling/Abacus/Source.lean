import Abacus.Feed
import Abacus.Text.Offset

/-!
# Source texts

A source text is read as a feed of lexemes that never ends.

* `Source.next` — what stands next in a text: a lexeme, an error or the end.
* `Stream` — a text that is being read. `Stream.pull` gives its next item, and
  keeps an error that it has met.
* `Source.scan` — the lexemes of a text in order, and the one item that every
  later pull gives: the end of the input, or the error the text stops at.
* `Feed.ofSource` — the same as a feed.

Blanks are skipped. A run of digits is taken as long as it can be and is one
integer; each operator or parenthesis is a token of its own.
-/

namespace Abacus

namespace Source

/-- The characters that separate tokens: space, tab, newline, carriage return
and form feed. -/
def isBlank (c : Char) : Bool :=
  c = ' ' || c = '\t' || c = '\n' || c = '\r' || c = '\x0c'

/-- The value of a run of digits, if 64 bits hold it. -/
def value? (digits : List Char) : Option UInt64 :=
  let value := Nat.ofDigitChars 10 digits 0
  if h : value < UInt64.size then some (UInt64.ofNatLT value h) else none

/-- What stands next in a text. -/
inductive Next where
  /-- The text ends at this byte. -/
  | ending (offset : Nat)
  /-- A lexeme, and behind it the characters `rest`, which stand at byte `offset`. -/
  | lexeme (lexeme : Lexeme) (offset : Nat) (rest : List Char)
  /-- Characters that start with no lexeme. -/
  | failure (error : LexError)

/-- What stands next among the characters at byte `offset` of a text. -/
def next (offset : Nat) : List Char → Next
  | [] => .ending offset
  | c :: cs =>
    if isBlank c then
      next (offset + c.utf8Size) cs
    else
      match Token.ofChar? c with
      | some token => .lexeme ⟨token, offset⟩ (offset + c.utf8Size) cs
      | none =>
        if c.isDigit then
          let digits := c :: cs.takeWhile Char.isDigit
          match value? digits with
          | some value =>
            .lexeme ⟨.integer value, offset⟩ (offset + Text.byteLength digits)
              (cs.dropWhile Char.isDigit)
          | none => .failure (.literalTooLarge (String.ofList digits) offset)
        else
          .failure (.unexpectedCharacter c offset)

/-- What has been read when a lexeme is found are the characters in front of the rest, and at
least one of them. -/
theorem exists_of_next {offset stop : Nat} {cs rest : List Char} {lexeme : Lexeme}
    (h : next offset cs = .lexeme lexeme stop rest) :
    ∃ used, used ≠ [] ∧ cs = used ++ rest ∧ stop = offset + Text.byteLength used := by
  induction cs generalizing offset with
  | nil => cases h
  | cons c cs ih =>
    simp only [next] at h
    split at h
    · -- A blank goes with what is behind it.
      obtain ⟨used, -, rfl, rfl⟩ := ih h
      exact ⟨c :: used, List.cons_ne_nil _ _, rfl, by rw [Text.byteLength_cons, Nat.add_assoc]⟩
    split at h
    · obtain ⟨-, rfl, rfl⟩ := Next.lexeme.inj h
      exact ⟨[c], List.cons_ne_nil _ _, rfl, by simp⟩
    split at h
    · split at h
      · obtain ⟨-, rfl, rfl⟩ := Next.lexeme.inj h
        exact ⟨c :: cs.takeWhile Char.isDigit, List.cons_ne_nil _ _,
          by rw [List.cons_append, List.takeWhile_append_dropWhile], rfl⟩
      · cases h
    · cases h

/-- There is less to read behind a lexeme. -/
theorem length_lt_of_next {offset stop : Nat} {cs rest : List Char} {lexeme : Lexeme}
    (h : next offset cs = .lexeme lexeme stop rest) : rest.length < cs.length := by
  obtain ⟨used, hne, rfl, -⟩ := exists_of_next h
  have hused := List.length_pos_iff.mpr hne
  rw [List.length_append]
  omega

/-- What a text is read as. -/
structure Reading where
  /-- The lexemes up to the end of the text or the first error. -/
  lexemes : List Lexeme
  /-- What every pull after the lexemes gives. -/
  tail : Item

/-- One more lexeme in front. -/
def Reading.cons (lexeme : Lexeme) (reading : Reading) : Reading :=
  ⟨lexeme :: reading.lexemes, reading.tail⟩

/-- Reads the characters that stand at byte `offset` of a text. -/
def scanFrom (offset : Nat) (cs : List Char) : Reading :=
  match _ : next offset cs with
  | .ending stop => ⟨[], .ok ⟨.eof, stop⟩⟩
  | .lexeme lexeme stop rest => (scanFrom stop rest).cons lexeme
  | .failure error => ⟨[], .error error⟩
termination_by cs.length
decreasing_by exact length_lt_of_next ‹_›

/-- Reads a whole text. -/
def scan (source : String) : Reading :=
  scanFrom 0 source.toList

/-- The items up to and including the first end of input or error. -/
def items (source : String) : List Item :=
  (scan source).lexemes.map Except.ok ++ [(scan source).tail]

end Source

/-! ## Item by item -/

/-- A text that is being read. -/
structure Stream where
  /-- The whole text. -/
  source : String
  /-- The byte at which the text goes on. -/
  offset : Nat
  /-- The characters that have not been read. -/
  rest : List Char
  /-- The error that has been met, if any. -/
  error : Option LexError

namespace Stream

/-- A text of which nothing has been read. -/
def ofSource (source : String) : Stream := ⟨source, 0, source.toList, none⟩

/-- Gives the next item. After an error there is nothing but this error, and after the last
lexeme nothing but the end of the input. -/
def pull (stream : Stream) : Item × Stream :=
  match stream.error with
  | some error => (.error error, stream)
  | none =>
    match Source.next stream.offset stream.rest with
    | .ending stop =>
      (.ok ⟨.eof, stream.source.utf8ByteSize⟩, { stream with offset := stop, rest := [] })
    | .lexeme lexeme stop rest => (.ok lexeme, { stream with offset := stop, rest := rest })
    | .failure error => (.error error, { stream with error := some error })

/-- The stream after some pulls. -/
def after (stream : Stream) : Nat → Stream
  | 0 => stream
  | pulls + 1 => stream.pull.2.after pulls

end Stream

/-! ## As a feed -/

/-- The feed of a source text. It never ends: the end of the input, or the
error the text stops at, is repeated for ever. -/
def Feed.ofSource (source : String) : Feed :=
  let reading := Source.scan source
  let lexemes := reading.lexemes.toArray
  followedBy lexemes reading.tail

end Abacus
