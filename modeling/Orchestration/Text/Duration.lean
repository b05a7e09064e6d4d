/-!
# Durations in messages

`Text.duration` writes a number of milliseconds in the greatest unit that is not below one of it.
-/

namespace Orchestration.Text

/-- A number of thousandths below one as digits, without zeros at the end. -/
def thousandths (n : Nat) : List Char :=
  let ds := [Nat.digitChar (n / 100), Nat.digitChar (n / 10 % 10), Nat.digitChar (n % 10)]
  (ds.reverse.dropWhile (· == '0')).reverse

/-- A duration in seconds or milliseconds; none at all is written in nanoseconds. -/
def duration (ms : Nat) : String :=
  if ms = 0 then "0ns"
  else if ms < 1000 then s!"{ms}ms"
  else if ms % 1000 = 0 then
    let whole := ms / 1000
    s!"{whole}s"
  else
    let whole := ms / 1000
    let part := String.ofList (thousandths (ms % 1000))
    s!"{whole}.{part}s"

end Orchestration.Text
