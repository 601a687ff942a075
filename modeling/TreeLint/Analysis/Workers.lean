/-!
# Workers

A function is applied to many items by several workers at a time. Who does what and who is done
first is not fixed; what is fixed is that each result stands where its item does.

- `WorkerPool`: a way to share out a list.
- `WorkerPool.halving`: the list is halved, and the halves again, until each worker has a part.
- `WorkerPool.map_eq`: no result depends on the pool, nor on the number of workers.
-/

namespace TreeLint

/-- A way to apply functions to all items of a list by a number of `workers`; asked for none, the
pool takes as many as it likes. -/
structure WorkerPool (α β : Type) where
  map (workers : Nat) (f : α → β) (items : List α) : List β
  /-- Each result stands where its item does. -/
  getElem?_map (workers : Nat) (f : α → β) (items : List α) (i : Nat) :
    (map workers f items)[i]? = items[i]?.map f

namespace WorkerPool

variable {α β : Type}

/-- No result depends on `pool`, nor on the number of `workers`. -/
theorem map_eq (pool : WorkerPool α β) (workers : Nat) (f : α → β) (items : List α) :
    pool.map workers f items = items.map f :=
  List.ext_getElem? fun i => by rw [pool.getElem?_map, List.getElem?_map]

/-- Applies `f` to the two halves of a list, each halved up to `depth` times itself. -/
def mapHalves (f : α → β) : (depth : Nat) → List α → List β
  | 0, items => items.map f
  | depth + 1, items =>
    if items.length ≤ 1 then items.map f
    else
      let middle := items.length / 2
      mapHalves f depth (items.take middle) ++ mapHalves f depth (items.drop middle)

theorem mapHalves_eq (f : α → β) (depth : Nat) (items : List α) :
    mapHalves f depth items = items.map f := by
  induction depth generalizing items with
  | zero => rfl
  | succ depth ih =>
    simp only [mapHalves, ih, ← List.map_append, List.take_append_drop, ite_self]

/-- Halves a list until each worker has a part. -/
def halving : WorkerPool α β where
  map workers f items := mapHalves f workers items
  getElem?_map workers f items i := by rw [mapHalves_eq, List.getElem?_map]

end WorkerPool

end TreeLint
