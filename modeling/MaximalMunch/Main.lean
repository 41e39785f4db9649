import Std.Time.DateTime.Timestamp
import MaximalMunch.Campaign

/-! The fuzzing command: `[seed] [rounds]`. -/

/-- The seconds since 1970; `0` on a clock that shows an earlier time. -/
def clockSeconds : IO UInt64 := do
  let now ← Std.Time.Timestamp.now
  return UInt64.ofNat now.toSecondsSinceUnixEpoch.val.toNat

def main (args : List String) : IO UInt32 := do
  let (code, output) := MaximalMunch.Campaign.ofArguments (← clockSeconds) args
  IO.print output
  return UInt32.ofNat code
