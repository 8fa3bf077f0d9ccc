/-!
# Arenas

Storage under keys that are never handed out twice. A place that was vacated is used again, the
last one vacated first, under a new generation, so that an old key does not reach what is stored
there now.
-/

namespace Dataflow

structure Key where
  slot : Nat
  generation : Nat
  deriving DecidableEq, Repr, Inhabited

/-- A key under which nothing is ever stored: generations in use are positive. -/
def Key.null : Key := ⟨0, 0⟩

/-- A place of an arena. The generation belongs to what is stored now, or to what is stored
there next. -/
structure Place (α : Type) where
  generation : Nat
  content : Option α

structure Arena (α : Type) where
  places : Array (Place α) := #[]
  vacant : List Nat := []

namespace Arena

variable {α : Type}

instance : Inhabited (Arena α) := ⟨{}⟩

def get? (a : Arena α) (k : Key) : Option α :=
  match a.places[k.slot]? with
  | some p => if p.generation = k.generation then p.content else none
  | none => none

/-- The key that the next insertion hands out. -/
def nextKey (a : Arena α) : Key :=
  match a.vacant with
  | [] => ⟨a.places.size, 1⟩
  | slot :: _ => ⟨slot, (a.places[slot]?.map (·.generation)).getD 1⟩

/-- Stores a value, which may hold its own key, under the next key. -/
def insert (a : Arena α) (make : Key → α) : Key × Arena α :=
  let key := a.nextKey
  let place : Place α := ⟨key.generation, some (make key)⟩
  match a.vacant with
  | [] => (key, { a with places := a.places.push place })
  | slot :: vacant => (key, ⟨a.places.setIfInBounds slot place, vacant⟩)

/-- Changes the value stored under a key, if there is one. -/
def modify (a : Arena α) (k : Key) (f : α → α) : Arena α :=
  { a with
    places := a.places.modify k.slot fun p =>
      if p.generation = k.generation then { p with content := p.content.map f } else p }

/-- Vacates the place of a key. -/
def remove (a : Arena α) (k : Key) : Option (α × Arena α) :=
  match a.get? k with
  | none => none
  | some x =>
    some (x, ⟨a.places.setIfInBounds k.slot ⟨k.generation + 1, none⟩, k.slot :: a.vacant⟩)

end Arena

end Dataflow
