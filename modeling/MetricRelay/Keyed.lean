/-!
Lists of pairs kept in strictly increasing order of their keys. `insert` replaces the value of a key
that is present, `adjust` changes it or starts one; both keep the order.
-/
namespace MetricRelay.Keyed

variable {κ : Type} {α : Type} [LT κ] [DecidableLT κ] [DecidableEq κ]

/-- Change the value of `k` with `f`, which sees `none` when there is none yet. -/
def adjust (k : κ) (f : Option α → α) : List (κ × α) → List (κ × α)
  | [] => [(k, f none)]
  | (k', v) :: rest =>
    if k = k' then (k, f (some v)) :: rest
    else if k < k' then (k, f none) :: (k', v) :: rest
    else (k', v) :: adjust k f rest

def insert (k : κ) (v : α) (entries : List (κ × α)) : List (κ × α) :=
  adjust k (fun _ => v) entries

/-- Of several pairs with one key the last one stays. -/
def ofList (entries : List (κ × α)) : List (κ × α) :=
  entries.foldl (fun acc (k, v) => insert k v acc) []

omit [LT κ] [DecidableLT κ] in
def get? (k : κ) (entries : List (κ × α)) : Option α :=
  (entries.find? (·.1 = k)).map (·.2)

end MetricRelay.Keyed
