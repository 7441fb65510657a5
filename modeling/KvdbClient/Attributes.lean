import KvdbClient.Serializers

/-! The attributes the concurrency and hierarchy code reads: `attributes.py`. -/
namespace KvdbClient

structure Column where
  familyId : Text
  key : Bytes
  deriving DecidableEq

/-- The qualifier is UTF-8. -/
def Column.Decodable (c : Column) : Prop := decodeUtf8 c.key ≠ none

instance (c : Column) : Decidable c.Decodable := inferInstanceAs (Decidable (_ ≠ _))

theorem Column.decodable_of_key {c : Column} {key : Text} (h : c.key = encodeUtf8 key) :
    c.Decodable := by
  rw [Decodable,h,decodeUtf8_encodeUtf8]
  exact Option.some_ne_none key

structure Attribute (α : Type) extends Column where
  serialize : α → Bytes

/-- `serializers.UInt64String`. -/
def uint64String (n : ℕ) : Bytes := serializeUint64 n false false

theorem uint64String_injective : Function.Injective uint64String :=
  serializeUint64_injective false false

namespace Concurrency

def counter : Column := ⟨['1'],encodeUtf8 ['c','o','u','n','t','e','r']⟩

def lock : Attribute ℕ where
  familyId := ['0']
  key := encodeUtf8 ['l','o','c','k']
  serialize := uint64String

def indefiniteLock : Attribute ℕ where
  familyId := ['0']
  key := encodeUtf8 ['i','n','d','e','f','i','n','i','t','e','_','l','o','c','k']
  serialize := uint64String

end Concurrency

namespace Hierarchy

def parent : Column := ⟨['0'],encodeUtf8 ['p','a','r','e','n','t','s']⟩

def newParent : Column := ⟨['0'],encodeUtf8 ['n','e','w','_','p','a','r','e','n','t','s']⟩

end Hierarchy

namespace GraphSettings

def key : Bytes := encodeUtf8 ['p','a','r','a','m','s']

def layerCount : Column := ⟨['0'],encodeUtf8 ['n','_','l','a','y','e','r','s']⟩

end GraphSettings

namespace TableMeta

def key : Bytes := encodeUtf8 ['m','e','t','a']

def metaColumn : Column := ⟨['0'],key⟩

end TableMeta

namespace TableVersion

def key : Bytes := encodeUtf8 ['v','e','r','s','i','o','n']

def version : Column := ⟨['0'],key⟩

end TableVersion

namespace OperationLogs

/-- A `String("utf-8")` attribute. -/
def userId : Attribute Text where
  familyId := ['2']
  key := encodeUtf8 ['u','s','e','r']
  serialize := encodeUtf8

def rootId : Column := ⟨['2'],encodeUtf8 ['r','o','o','t','s']⟩

end OperationLogs

theorem lock_ne_indefiniteLock : Concurrency.lock.toColumn ≠ Concurrency.indefiniteLock.toColumn := by
  decide

end KvdbClient
