/-!
Results that are loaded once for all who ask. The first caller for a key loads; callers that come
meanwhile stand in line and share its result, good or bad. When a loader gives up, the first in line
loads in its place.
-/
namespace MetricRelay

/-- What there is under a key. -/
inductive Cell (ν : Type) where
  | loading (loader : Nat) (line : List Nat)
  | ready (value : ν)

/-- Callers are known by numbers. A key without a cell has neither a result nor a loader. -/
structure SingleFlight (ν : Type) where
  cells : List (String × Cell ν) := []
  /-- How many loads have been started. -/
  loads : Nat := 0

namespace SingleFlight

variable {ν : Type}

/-- What a caller has to do. -/
inductive Entry (ν : Type) where
  | take (value : ν)
  | load
  | wait

def cell? (f : SingleFlight ν) (key : String) : Option (Cell ν) :=
  (f.cells.find? (·.1 == key)).map (·.2)

def put (f : SingleFlight ν) (key : String) (c : Cell ν) : SingleFlight ν :=
  { f with cells := (key, c) :: f.cells.filter (·.1 != key) }

def drop (f : SingleFlight ν) (key : String) : SingleFlight ν :=
  { f with cells := f.cells.filter (·.1 != key) }

def startLoad (f : SingleFlight ν) : SingleFlight ν := { f with loads := f.loads + 1 }

/-- A caller asks for the first time. -/
def enter (f : SingleFlight ν) (key : String) (caller : Nat) : Entry ν × SingleFlight ν :=
  match f.cell? key with
  | none => (.load, (f.put key (.loading caller [])).startLoad)
  | some (.loading loader line) => (.wait, f.put key (.loading loader (line ++ [caller])))
  | some (.ready value) => (.take value, f)

/-- A caller in line looks again: it takes the value, loads when it has become the loader, or waits
on. -/
def resume (f : SingleFlight ν) (key : String) (caller : Nat) : Entry ν × SingleFlight ν :=
  match f.cell? key with
  | some (.ready value) => (.take value, f)
  | some (.loading loader _) => if loader = caller then (.load, f.startLoad) else (.wait, f)
  | none => (.wait, f)

/-- The loader has its result. Everyone in line may go on. -/
def complete (f : SingleFlight ν) (key : String) (value : ν) : List Nat × SingleFlight ν :=
  match f.cell? key with
  | some (.loading _ line) => (line, f.put key (.ready value))
  | _ => ([], f.put key (.ready value))

/-- A caller gives up. If it was the loader, the first in line becomes the loader. -/
def abandon (f : SingleFlight ν) (key : String) (caller : Nat) : List Nat × SingleFlight ν :=
  match f.cell? key with
  | some (.loading loader line) =>
    if loader = caller then
      match line with
      | [] => ([], f.drop key)
      | next :: rest => ([next], f.put key (.loading next rest))
    else ([], f.put key (.loading loader (line.filter (· != caller))))
  | _ => ([], f)

end SingleFlight
end MetricRelay
