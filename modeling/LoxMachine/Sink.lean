/-!
# Output

A sink collects what a program prints. It may be limited to a number of bytes; a write that does not
fit is accepted as far as it fits, and fails.

* `Sink.write` appends a text and answers whether all of it was accepted.
* `Sink.textFrom` is what was written from some byte on. Only the limit can cut a character in two;
  the bytes that are left of it count as one replacement character.
-/

namespace LoxMachine

/-- What has been printed, and how much may be. -/
structure Sink where
  written : ByteArray := .empty
  limit : Option Nat := none
  deriving Inhabited

namespace Sink

/-- The reason given when a sink accepts no more. -/
def full : String := "sink full"

/-- Append a text as far as it fits. The answer is whether it fits. -/
def write (s : Sink) (text : String) : Bool × Sink :=
  let bytes := text.toUTF8
  match s.limit with
  | none => (true, { s with written := s.written ++ bytes })
  | some limit =>
    let room := limit - s.written.size
    if bytes.size ≤ room then (true, { s with written := s.written ++ bytes })
    else (false, { s with written := s.written ++ bytes.extract 0 room })

/-- The text of bytes that may end inside a character, after `dropped` bytes have been tried
without. -/
def decode (bytes : ByteArray) : (tries dropped : Nat) → String
  | 0, _ => ""
  | tries + 1, dropped =>
    match String.fromUTF8? (bytes.extract 0 (bytes.size - dropped)) with
    | some text => if dropped = 0 then text else text ++ "\uFFFD"
    | none => decode bytes tries (dropped + 1)

/-- What was written from byte `start` on. A character has at most four bytes, so at most three are
left of one that was cut. -/
def textFrom (s : Sink) (start : Nat) : String :=
  decode (s.written.extract start s.written.size) 4 0

end Sink

end LoxMachine
