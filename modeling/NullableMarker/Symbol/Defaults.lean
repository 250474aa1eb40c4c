import NullableMarker.Symbol.Table

/-!
# The default references

The types known before any other: those of the base runtime that generated code refers to, with the
types behind the keywords, and those of the message runtime.
-/

namespace NullableMarker.Defaults

/-! ## Writing types down -/

/-- A type of a namespace, from the set of types named by `file`. -/
def type (file space : String) (kind : TypeKind) (name : String) (arity : Int) : TypeSymbol :=
  { name, namespaceName := space, kind, arity, origin := s!"reference:{file}" }

/-- The type has a keyword. -/
def keyword (s : TypeSymbol) (special : Special) : TypeSymbol := { s with special := some special }

/-- The type has a base class. -/
def extending (s : TypeSymbol) (base : String) : TypeSymbol := { s with base := some (.key base) }

/-- The type has interfaces. -/
def implementing (s : TypeSymbol) (interfaces : List String) : TypeSymbol :=
  { s with interfaces := interfaces.map .key }

/-- The type lies in another. -/
def inside (s : TypeSymbol) (container : String) : TypeSymbol :=
  { s with containing := some container }

/-! ## The base runtime -/

/-- A type of the base runtime. -/
def systemType : String → TypeKind → String → Int → TypeSymbol := type "system.yaml"

/-- The types of `System`. -/
def system : List TypeSymbol :=
  let t := systemType "System"
  [keyword (t .class_ "Object" 0) .object,
    implementing (keyword (t .class_ "String" 0) .string)
      ["System.IComparable", "System.ICloneable", "System.IComparable`1", "System.IEquatable`1",
        "System.Collections.Generic.IEnumerable`1"],
    implementing (keyword (t .struct "Boolean" 0) .boolean)
      ["System.IComparable", "System.IEquatable`1"],
    implementing (keyword (t .struct "Char" 0) .char) ["System.IComparable", "System.IEquatable`1"],
    implementing (keyword (t .struct "SByte" 0) .sbyte)
      ["System.IComparable", "System.IEquatable`1"],
    implementing (keyword (t .struct "Byte" 0) .byte) ["System.IComparable", "System.IEquatable`1"],
    implementing (keyword (t .struct "Int16" 0) .int16)
      ["System.IComparable", "System.IEquatable`1"],
    implementing (keyword (t .struct "UInt16" 0) .uint16)
      ["System.IComparable", "System.IEquatable`1"],
    implementing (keyword (t .struct "Int32" 0) .int32)
      ["System.IComparable", "System.IEquatable`1"],
    implementing (keyword (t .struct "UInt32" 0) .uint32)
      ["System.IComparable", "System.IEquatable`1"],
    implementing (keyword (t .struct "Int64" 0) .int64)
      ["System.IComparable", "System.IEquatable`1"],
    implementing (keyword (t .struct "UInt64" 0) .uint64)
      ["System.IComparable", "System.IEquatable`1"],
    implementing (keyword (t .struct "Decimal" 0) .decimal)
      ["System.IComparable", "System.IEquatable`1"],
    implementing (keyword (t .struct "Single" 0) .single)
      ["System.IComparable", "System.IEquatable`1"],
    implementing (keyword (t .struct "Double" 0) .double)
      ["System.IComparable", "System.IEquatable`1"],
    keyword (t .struct "Void" 0) .void,
    t .struct "IntPtr" 0,
    t .struct "UIntPtr" 0,
    t .class_ "ValueType" 0,
    implementing (extending (t .class_ "Enum" 0) "System.ValueType") ["System.IComparable"],
    implementing (t .class_ "Array" 0) ["System.ICloneable", "System.Collections.IList"],
    t .struct "Nullable" 1,
    t .class_ "Type" 0,
    t .class_ "Attribute" 0,
    extending (t .class_ "ObsoleteAttribute" 0) "System.Attribute",
    extending (t .class_ "FlagsAttribute" 0) "System.Attribute",
    t .class_ "Exception" 0,
    extending (t .class_ "ArgumentNullException" 0) "System.Exception",
    extending (t .class_ "InvalidOperationException" 0) "System.Exception",
    extending (t .class_ "NotImplementedException" 0) "System.Exception",
    implementing (t .struct "DateTime" 0) ["System.IComparable", "System.IEquatable`1"],
    implementing (t .struct "TimeSpan" 0) ["System.IComparable", "System.IEquatable`1"],
    implementing (t .struct "Guid" 0) ["System.IComparable", "System.IEquatable`1"],
    t .class_ "Math" 0,
    t .class_ "Console" 0,
    t .class_ "Convert" 0,
    t .interface "IComparable" 0,
    t .interface "IComparable" 1,
    t .interface "IEquatable" 1,
    t .interface "ICloneable" 0,
    t .interface "IDisposable" 0,
    t .interface "IAsyncDisposable" 0,
    t .interface "IObservable" 1,
    t .class_ "EventArgs" 0,
    t .delegate "EventHandler" 0,
    t .delegate "EventHandler" 1,
    t .delegate "Action" 0,
    t .delegate "Action" 1,
    t .delegate "Action" 2,
    t .delegate "Func" 1,
    t .delegate "Func" 2,
    t .delegate "Func" 3,
    t .class_ "Lazy" 1,
    t .struct "ValueTuple" 2,
    t .struct "ValueTuple" 3,
    t .struct "ReadOnlySpan" 1,
    t .struct "Span" 1,
    t .struct "ReadOnlyMemory" 1,
    t .struct "Memory" 1]

/-- The types of `System.Collections`. -/
def systemCollections : List TypeSymbol :=
  let t := systemType "System.Collections"
  [t .interface "IEnumerable" 0,
    t .interface "IEnumerator" 0,
    implementing (t .interface "ICollection" 0) ["System.Collections.IEnumerable"],
    implementing (t .interface "IList" 0) ["System.Collections.ICollection"],
    implementing (t .interface "IDictionary" 0) ["System.Collections.ICollection"]]

/-- The types of `System.Collections.Generic`. -/
def systemCollectionsGeneric : List TypeSymbol :=
  let t := systemType "System.Collections.Generic"
  [implementing (t .interface "IEnumerable" 1) ["System.Collections.IEnumerable"],
    implementing (t .interface "IEnumerator" 1)
      ["System.Collections.IEnumerator", "System.IDisposable"],
    implementing (t .interface "ICollection" 1) ["System.Collections.Generic.IEnumerable`1"],
    implementing (t .interface "IList" 1) ["System.Collections.Generic.ICollection`1"],
    implementing (t .interface "IReadOnlyCollection" 1)
      ["System.Collections.Generic.IEnumerable`1"],
    implementing (t .interface "IReadOnlyList" 1)
      ["System.Collections.Generic.IReadOnlyCollection`1"],
    implementing (t .interface "IDictionary" 2) ["System.Collections.Generic.ICollection`1"],
    implementing (t .interface "IReadOnlyDictionary" 2)
      ["System.Collections.Generic.IReadOnlyCollection`1"],
    t .interface "IEqualityComparer" 1,
    t .interface "IComparer" 1,
    t .struct "KeyValuePair" 2,
    implementing (t .class_ "List" 1)
      ["System.Collections.Generic.IList`1", "System.Collections.Generic.IReadOnlyList`1",
        "System.Collections.IList"],
    implementing (t .class_ "Dictionary" 2)
      ["System.Collections.Generic.IDictionary`2",
        "System.Collections.Generic.IReadOnlyDictionary`2", "System.Collections.IDictionary"],
    implementing (t .class_ "HashSet" 1)
      ["System.Collections.Generic.ICollection`1",
        "System.Collections.Generic.IReadOnlyCollection`1"]]

/-- The types of `System.IO`. -/
def systemFiles : List TypeSymbol :=
  let t := systemType "System.IO"
  [implementing (t .class_ "Stream" 0) ["System.IDisposable"],
    extending (t .class_ "IOException" 0) "System.Exception",
    implementing (t .class_ "TextWriter" 0) ["System.IDisposable"],
    implementing (t .class_ "TextReader" 0) ["System.IDisposable"]]

/-- The types of `System.Text`. -/
def systemText : List TypeSymbol :=
  let t := systemType "System.Text"
  [t .class_ "StringBuilder" 0,
    t .class_ "Encoding" 0]

/-- The types of `System.Threading`. -/
def systemThreading : List TypeSymbol :=
  let t := systemType "System.Threading"
  [t .struct "CancellationToken" 0]

/-- The types of `System.Threading.Tasks`. -/
def systemThreadingTasks : List TypeSymbol :=
  let t := systemType "System.Threading.Tasks"
  [implementing (t .class_ "Task" 0) ["System.IDisposable"],
    extending (t .class_ "Task" 1) "System.Threading.Tasks.Task",
    t .struct "ValueTask" 0,
    t .struct "ValueTask" 1]

/-- The types of `System.Diagnostics`. -/
def systemDiagnostics : List TypeSymbol :=
  let t := systemType "System.Diagnostics"
  [extending (t .class_ "DebuggerNonUserCodeAttribute" 0) "System.Attribute",
    extending (t .class_ "DebuggerDisplayAttribute" 0) "System.Attribute",
    extending (t .class_ "DebuggerStepThroughAttribute" 0) "System.Attribute"]

/-- The types of `System.CodeDom.Compiler`. -/
def systemCodeDomCompiler : List TypeSymbol :=
  let t := systemType "System.CodeDom.Compiler"
  [extending (t .class_ "GeneratedCodeAttribute" 0) "System.Attribute"]

/-- The types of `System.Reflection`. -/
def systemReflection : List TypeSymbol :=
  let t := systemType "System.Reflection"
  [t .class_ "IntrospectionExtensions" 0,
    extending (t .class_ "TypeInfo" 0) "System.Type"]

/-- The types of `System.Runtime.CompilerServices`. -/
def systemRuntimeCompilerServices : List TypeSymbol :=
  let t := systemType "System.Runtime.CompilerServices"
  [extending (t .class_ "MethodImplAttribute" 0) "System.Attribute"]

/-! ## The message runtime -/

/-- A type of the message runtime. -/
def messageType : String → TypeKind → String → Int → TypeSymbol := type "protobuf.yaml"

/-- The types of `Google.Protobuf`. -/
def googleProtobuf : List TypeSymbol :=
  let t := messageType "Google.Protobuf"
  [t .interface "IMessage" 0,
    implementing (t .interface "IMessage" 1)
      ["Google.Protobuf.IMessage", "System.IEquatable`1", "Google.Protobuf.IDeepCloneable`1"],
    implementing (t .interface "IBufferMessage" 0) ["Google.Protobuf.IMessage"],
    implementing (t .interface "ICustomDiagnosticMessage" 0) ["Google.Protobuf.IMessage"],
    t .interface "IDeepCloneable" 1,
    implementing (t .interface "IExtendableMessage" 1) ["Google.Protobuf.IMessage`1"],
    implementing (t .class_ "ByteString" 0)
      ["System.IComparable`1", "System.IEquatable`1", "System.Collections.Generic.IEnumerable`1"],
    implementing (t .class_ "CodedInputStream" 0) ["System.IDisposable"],
    implementing (t .class_ "CodedOutputStream" 0) ["System.IDisposable"],
    t .struct "ParseContext" 0,
    t .struct "WriteContext" 0,
    t .class_ "UnknownFieldSet" 0,
    t .class_ "UnknownField" 0,
    t .class_ "MessageParser" 0,
    extending (t .class_ "MessageParser" 1) "Google.Protobuf.MessageParser",
    t .class_ "ProtoPreconditions" 0,
    t .class_ "MessageExtensions" 0,
    t .class_ "JsonFormatter" 0,
    t .class_ "JsonParser" 0,
    t .class_ "FieldCodec" 0,
    t .class_ "FieldCodec" 1,
    t .class_ "Extension" 0,
    extending (t .class_ "Extension" 2) "Google.Protobuf.Extension",
    extending (t .class_ "RepeatedExtension" 2) "Google.Protobuf.Extension",
    t .class_ "ExtensionSet" 1,
    t .class_ "ExtensionRegistry" 0,
    extending (t .class_ "InvalidProtocolBufferException" 0) "System.IO.IOException",
    extending (t .class_ "InvalidJsonException" 0) "System.IO.IOException"]

/-- The types of `Google.Protobuf.Collections`. -/
def googleProtobufCollections : List TypeSymbol :=
  let t := messageType "Google.Protobuf.Collections"
  [implementing (t .class_ "RepeatedField" 1)
      ["System.Collections.Generic.IList`1", "System.Collections.IList",
        "Google.Protobuf.IDeepCloneable`1", "System.IEquatable`1",
        "System.Collections.Generic.IReadOnlyList`1"],
    implementing (t .class_ "MapField" 2)
      ["Google.Protobuf.IDeepCloneable`1", "System.Collections.Generic.IDictionary`2",
        "System.IEquatable`1", "System.Collections.IDictionary",
        "System.Collections.Generic.IReadOnlyDictionary`2"],
    inside (t .class_ "Codec" 0) "Google.Protobuf.Collections.MapField`2",
    t .class_ "ProtobufEqualityComparers" 0,
    t .class_ "Lists" 0]

/-- The types of `Google.Protobuf.Reflection`. -/
def googleProtobufReflection : List TypeSymbol :=
  let t := messageType "Google.Protobuf.Reflection"
  [t .class_ "DescriptorBase" 0,
    t .class_ "FileDescriptor" 0,
    extending (t .class_ "MessageDescriptor" 0) "Google.Protobuf.Reflection.DescriptorBase",
    extending (t .class_ "FieldDescriptor" 0) "Google.Protobuf.Reflection.DescriptorBase",
    extending (t .class_ "EnumDescriptor" 0) "Google.Protobuf.Reflection.DescriptorBase",
    extending (t .class_ "EnumValueDescriptor" 0) "Google.Protobuf.Reflection.DescriptorBase",
    extending (t .class_ "OneofDescriptor" 0) "Google.Protobuf.Reflection.DescriptorBase",
    extending (t .class_ "ServiceDescriptor" 0) "Google.Protobuf.Reflection.DescriptorBase",
    extending (t .class_ "MethodDescriptor" 0) "Google.Protobuf.Reflection.DescriptorBase",
    t .class_ "GeneratedClrTypeInfo" 0,
    t .class_ "TypeRegistry" 0,
    extending (t .class_ "OriginalNameAttribute" 0) "System.Attribute"]

/-- The types of `Google.Protobuf.WellKnownTypes`. -/
def googleProtobufWellKnownTypes : List TypeSymbol :=
  let t := messageType "Google.Protobuf.WellKnownTypes"
  [implementing (t .class_ "Any" 0)
      ["Google.Protobuf.IMessage`1", "Google.Protobuf.IBufferMessage"],
    implementing (t .class_ "Api" 0)
      ["Google.Protobuf.IMessage`1", "Google.Protobuf.IBufferMessage"],
    implementing (t .class_ "BoolValue" 0)
      ["Google.Protobuf.IMessage`1", "Google.Protobuf.IBufferMessage"],
    implementing (t .class_ "BytesValue" 0)
      ["Google.Protobuf.IMessage`1", "Google.Protobuf.IBufferMessage"],
    implementing (t .class_ "DoubleValue" 0)
      ["Google.Protobuf.IMessage`1", "Google.Protobuf.IBufferMessage"],
    implementing (t .class_ "Duration" 0)
      ["Google.Protobuf.IMessage`1", "Google.Protobuf.IBufferMessage"],
    implementing (t .class_ "Empty" 0)
      ["Google.Protobuf.IMessage`1", "Google.Protobuf.IBufferMessage"],
    implementing (t .class_ "FieldMask" 0)
      ["Google.Protobuf.IMessage`1", "Google.Protobuf.IBufferMessage"],
    implementing (t .class_ "FloatValue" 0)
      ["Google.Protobuf.IMessage`1", "Google.Protobuf.IBufferMessage"],
    implementing (t .class_ "Int32Value" 0)
      ["Google.Protobuf.IMessage`1", "Google.Protobuf.IBufferMessage"],
    implementing (t .class_ "Int64Value" 0)
      ["Google.Protobuf.IMessage`1", "Google.Protobuf.IBufferMessage"],
    implementing (t .class_ "ListValue" 0)
      ["Google.Protobuf.IMessage`1", "Google.Protobuf.IBufferMessage"],
    implementing (t .class_ "StringValue" 0)
      ["Google.Protobuf.IMessage`1", "Google.Protobuf.IBufferMessage"],
    implementing (t .class_ "Struct" 0)
      ["Google.Protobuf.IMessage`1", "Google.Protobuf.IBufferMessage"],
    implementing (t .class_ "Timestamp" 0)
      ["Google.Protobuf.IMessage`1", "Google.Protobuf.IBufferMessage"],
    implementing (t .class_ "UInt32Value" 0)
      ["Google.Protobuf.IMessage`1", "Google.Protobuf.IBufferMessage"],
    implementing (t .class_ "UInt64Value" 0)
      ["Google.Protobuf.IMessage`1", "Google.Protobuf.IBufferMessage"],
    implementing (t .class_ "Value" 0)
      ["Google.Protobuf.IMessage`1", "Google.Protobuf.IBufferMessage"],
    t .enum "NullValue" 0]

/-! ## All of them -/

/-- The default types. -/
def symbols : List TypeSymbol :=
  system ++ systemCollections ++ systemCollectionsGeneric ++ systemFiles ++ systemText
    ++ systemThreading ++ systemThreadingTasks ++ systemDiagnostics ++ systemCodeDomCompiler
    ++ systemReflection ++ systemRuntimeCompilerServices ++ googleProtobuf
    ++ googleProtobufCollections ++ googleProtobufReflection ++ googleProtobufWellKnownTypes

/-- The default references. -/
def table : SymbolTable := SymbolTable.ofList symbols

end NullableMarker.Defaults
