import Abacus.Proofs.Scan

/-!
# Texts read item by item

* `Source.Reading.item` — the items of a reading by number, the last of them for ever.
* `Stream.Gives` — the reading that a stream is going to give.
* `Stream.Gives.pull` — a pull gives the first item of the reading and leaves the others.
* `Feed.item_ofSource_eq_pull` — the feed of a text gives what its stream gives, pull by pull.
-/

namespace Abacus

namespace Source

/-- The item with index `n` of a reading. -/
def Reading.item (reading : Reading) (n : Nat) : Item :=
  (reading.lexemes[n]?.map Except.ok).getD reading.tail

/-- What is left of a reading behind its first item. The last item is always left. -/
def Reading.rest (reading : Reading) : Reading := ⟨reading.lexemes.tail, reading.tail⟩

theorem Reading.item_rest (reading : Reading) (n : Nat) :
    reading.rest.item n = reading.item (n + 1) := by
  rw [rest, item, item, List.getElem?_tail]

theorem item_ofSource (source : String) (n : Nat) :
    (Feed.ofSource source).item n = some ((scan source).item n) := by
  simp [Feed.ofSource, Feed.followedBy, Reading.item]

/-- A text ends where all its characters have been read. -/
theorem eq_of_next_ending {offset stop : Nat} {cs : List Char} (h : next offset cs = .ending stop) :
    stop = offset + Text.byteLength cs := by
  have hwithin := within_scanFrom offset cs
  rw [scanFrom_of_ending h] at hwithin
  exact (Lexeme.mk.inj (hwithin.eof _ rfl)).2

end Source

namespace Stream

/-- The reading that a stream gives from here on. As long as there is no error, what the stream
has not read goes up to the end of its text. -/
inductive Gives (stream : Stream) : Source.Reading → Prop where
  | going (herror : stream.error = none)
    (hplace : stream.offset + Text.byteLength stream.rest = stream.source.utf8ByteSize) :
    Gives stream (Source.scanFrom stream.offset stream.rest)
  | failed {error : LexError} (herror : stream.error = some error) : Gives stream ⟨[], .error error⟩

namespace Gives

variable {stream : Stream} {reading : Source.Reading}

theorem ofSource (source : String) : (Stream.ofSource source).Gives (Source.scan source) := by
  refine .going rfl ?_
  rw [Stream.ofSource, Nat.zero_add, Text.byteLength_toList]

/-- One pull gives the first item of the reading, and the stream goes on with the others. -/
theorem pull (h : stream.Gives reading) :
    stream.pull.1 = reading.item 0 ∧ stream.pull.2.Gives reading.rest := by
  cases h with
  | failed herror =>
    rw [Stream.pull, herror]
    exact ⟨rfl, .failed herror⟩
  | going herror hplace =>
    rcases hnext : Source.next stream.offset stream.rest with stop | ⟨lexeme, stop, rest⟩ | error
    · -- The end is found where the text ends, and found there again.
      obtain rfl := Source.eq_of_next_ending hnext
      simp only [Stream.pull, herror, hnext]
      rw [Source.scanFrom_of_ending hnext, hplace]
      have hgives : Gives ⟨stream.source, stream.source.utf8ByteSize, [], none⟩
          (Source.scanFrom stream.source.utf8ByteSize []) := .going rfl rfl
      rw [Source.scanFrom_nil] at hgives
      exact ⟨rfl, hgives⟩
    · obtain ⟨used, -, hrest, rfl⟩ := Source.exists_of_next hnext
      simp only [Stream.pull, herror, hnext]
      rw [Source.scanFrom_of_lexeme hnext]
      refine ⟨rfl, .going rfl ?_⟩
      rw [hrest, Text.byteLength_append, ← Nat.add_assoc] at hplace
      exact hplace
    · simp only [Stream.pull, herror, hnext]
      rw [Source.scanFrom_of_failure hnext]
      exact ⟨rfl, .failed rfl⟩

/-- All items come in their order, however often the stream is pulled. -/
theorem item_after (h : stream.Gives reading) (n : Nat) :
    (stream.after n).pull.1 = reading.item n := by
  induction n generalizing stream reading with
  | zero => exact h.pull.1
  | succ n ih => rw [Stream.after, ih h.pull.2, Source.Reading.item_rest]

end Gives

end Stream

/-- The feed of a text gives what its stream gives, pull by pull: after the last lexeme the end of
the input for ever, and after an error this error. -/
theorem Feed.item_ofSource_eq_pull (source : String) (n : Nat) :
    (ofSource source).item n = some ((Stream.ofSource source).after n).pull.1 := by
  rw [Source.item_ofSource, (Stream.Gives.ofSource source).item_after]

end Abacus
