import Offside.ValueReading

namespace Offside

/-- Readers for the spans of fewer tokens than a bound. Whatever is read inside a span has fewer
tokens than the span. -/
def Readers.below : Nat → Readers
  | 0 => ⟨fun _ => refuse .noExpression .unknown, fun _ => refuse .unexpectedBlock .unknown⟩
  | bound + 1 =>
    ⟨fun span => valueStep (Readers.below bound) span,
      fun span => blockStep (Readers.below bound) span⟩

def readValue (span : List Tree) : Outcome Value :=
  valueStep (Readers.below (leafCount span)) span

def readBlock (span : List Tree) : Outcome Block :=
  blockStep (Readers.below (leafCount span)) span

def readers : Readers :=
  ⟨readValue, readBlock⟩

end Offside
