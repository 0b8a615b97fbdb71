import MetricRelay.Fetch.Error
/-!
One request to a source, and what comes back.
-/
namespace MetricRelay

structure Header where
  name : String
  value : String
  deriving DecidableEq, Repr

structure Request where
  method : String
  url : String
  /-- At most one header: the token. -/
  header : Option Header := none
  deriving DecidableEq, Repr

/-- The body, or why there is none. -/
abbrev Answer := Except FetchError Text.Bytes

/-- An answer that arrives after a time in milliseconds. -/
structure Reply where
  answer : Answer
  delay : Nat := 0

end MetricRelay
