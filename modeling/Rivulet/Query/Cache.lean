import Std.Data.HashMap
import Rivulet.Json.Basic

/-!
# Late results

Values of queries that no render waited for, kept until the prefetch stream takes them.
-/

namespace Rivulet.Query

/-- Values by the key of their query. -/
structure Cache where
  /-- The values that wait. -/
  values : Std.HashMap String Json := ∅
  deriving Inhabited

namespace Cache

/-- The value of a key. -/
def get? (c : Cache) (key : String) : Option Json := c.values[key]?

/-- Whether a key has a value. -/
def contains (c : Cache) (key : String) : Bool := c.values.contains key

/-- Keeps a value, in place of an earlier one. -/
def insert (c : Cache) (key : String) (value : Json) : Cache := ⟨c.values.insert key value⟩

/-- Takes a value out. -/
def take (c : Cache) (key : String) : Option Json × Cache := (c.get? key, ⟨c.values.erase key⟩)

/-- The number of values. -/
def size (c : Cache) : Nat := c.values.size

/-- Whether a value that was taken is gone. -/
theorem get?_take (c : Cache) (key : String) : (c.take key).2.get? key = none := by
  simp [take, get?]

end Cache

end Rivulet.Query
