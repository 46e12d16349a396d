/-!
# Durations

The unit grows with the duration; what is shorter than a unit is rounded.
-/

namespace GridMarkup.Command

def twoDecimals (hundredths : Nat) : String :=
  toString (hundredths / 100) ++ "." ++ (if hundredths % 100 < 10 then "0" else "") ++
    toString (hundredths % 100)

def oneDecimal (tenths : Nat) : String := toString (tenths / 10) ++ "." ++ toString (tenths % 10)

def durationText (microseconds : Nat) : String :=
  if microseconds < 1000 then toString microseconds ++ "μs"
  else if microseconds < 1000000 then oneDecimal ((microseconds + 50) / 100) ++ "ms"
  else twoDecimals ((microseconds + 5000) / 10000) ++ "s"

end GridMarkup.Command
