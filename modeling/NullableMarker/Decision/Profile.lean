/-!
# Framework profiles

The names that decisions look for in the runtime of a serialization framework.
-/

namespace NullableMarker

/-- The names of a framework's runtime. -/
structure Profile where
  /-- The namespace of the core types. -/
  coreNamespace : String := "Google.Protobuf"
  /-- The namespace of the collection types. -/
  collectionsNamespace : String := "Google.Protobuf.Collections"
  /-- The interface that every message implements, at any arity. -/
  messageInterface : String := "IMessage"
  /-- The immutable sequence of bytes. -/
  byteString : String := "ByteString"
  /-- The collections that are never null once constructed. -/
  collectionTypes : List String := ["RepeatedField", "MapField"]
  /-- The field that keeps unknown data. -/
  unknownFieldsName : String := "_unknownFields"
  /-- The methods by which setters refuse null. -/
  guardMethods : List String := ["CheckNotNull"]
  /-- The keys of the types that hold those methods. -/
  guardHolders : List String := ["Google.Protobuf.ProtoPreconditions"]
  /-- The method that compares. -/
  equalityMethod : String := "Equals"
  /-- The method that merges. -/
  mergeMethod : String := "MergeFrom"
  /-- The type of the streams that are merged from. -/
  inputStreamType : String := "CodedInputStream"
  deriving Repr, DecidableEq

instance : Inhabited Profile := ⟨{}⟩

end NullableMarker
