import TypeLoom.Draft.Batch

/-!
# Edits

Everything that can be done to a batch before it is generated, as data. A run of edits goes on after
failures.
-/

namespace TypeLoom

/-- An operation on a batch with its arguments. -/
inductive Edit
  | createType (space name : String) (flags : UInt32) (base : Option Signature)
  | createInterface (space name : String)
  | addNested (outer : TypeHandle) (name : String) (flags : UInt32) (base : Option Signature)
  | addBatchInterface (type interface : TypeHandle)
  | addField (type : TypeHandle) (name : String) (signature : Signature) (flags : UInt32)
  | addConstructor (type : TypeHandle) (flags : UInt32) (parameters : List Parameter) (body : Expr)
  | addTypeInitializer (type : TypeHandle) (body : Expr)
  | addTypeInitialization (type : TypeHandle) (e : Expr)
  | addInitialization (type : TypeHandle) (e : Expr)
  | addMethod (type : TypeHandle) (name : String) (flags : UInt32) (signature : MethodSignature)
    (body : Option Expr)
  | setMethodBody (type : TypeHandle) (method : MethodHandle) (body : Expr)
  | addProperty (type : TypeHandle) (name : String) (signature : Signature)
    (getter setter : Option MethodHandle)
  | addPropertyAccessors (type : TypeHandle) (name : String) (signature : Signature)
    (access : Access)
    (getterBody setterBody : Option Expr)
  | addAutoProperty (type : TypeHandle) (name : String) (signature : Signature) (access : Access)
  | addEvent (type : TypeHandle) (name : String) (eventType : Signature) (add remove : MethodHandle)
    (raise : Option MethodHandle)
  | addInterface (type : TypeHandle) (interface : TypeId) (allowReimplementation : Bool)
  | addAttribute (type : TypeHandle) (a : Attribute)
  | addMethodAttribute (type : TypeHandle) (method : MethodHandle) (a : Attribute)
  | addFieldAttribute (type : TypeHandle) (field : FieldHandle) (a : Attribute)
  | overrideMethod (type : TypeHandle) (method : MethodId)
  | implementMethod (type : TypeHandle) (method : MethodId)
  | askAbstract (type : TypeHandle)

inductive EditAnswer
  | done
  | type (handle : TypeHandle)
  | field (handle : FieldHandle)
  | method (handle : MethodHandle)
  | property (handle : PropertyHandle)
  | event (handle : EventHandle)
  | registered (handle : MethodHandle) (created : Bool)
  | truth (value : Bool)
  deriving DecidableEq, Repr, Inhabited

namespace Edit

def perform (u : Universe) : Edit → Attempt Batch EditAnswer
  | createType space name flags base => return .type (← Batch.createType u space name flags base)
  | createInterface space name => return .type (← Batch.createInterface u space name)
  | addNested outer name flags base => return .type (← Batch.addNested u outer name flags base)
  | addBatchInterface t i => do
    Batch.addBatchInterface t i
    return .done
  | addField t name signature flags =>
    return .field (← Batch.onType t (Descriptor.addField name signature flags))
  | addConstructor t flags parameters body =>
    return .method (← Batch.onType t (Descriptor.addConstructor flags parameters body))
  | addTypeInitializer t body =>
    return .method (← Batch.onType t (Descriptor.addTypeInitializer body))
  | addTypeInitialization t e => do
    Batch.onType t (Descriptor.addTypeInitialization e)
    return .done
  | addInitialization t e => do
    Batch.onType t (Descriptor.addInitialization e)
    return .done
  | addMethod t name flags signature body =>
    return .method (← Batch.onType t (Descriptor.addMethod name flags signature body))
  | setMethodBody t m body => do
    Batch.onType t (Descriptor.setMethodBody m body)
    return .done
  | addProperty t name signature getter setter =>
    return .property (← Batch.onType t (Descriptor.addProperty u name signature getter setter))
  | addPropertyAccessors t name signature access getterBody setterBody =>
    return .property
      (← Batch.onType t (Descriptor.addPropertyAccessors u name signature access
        getterBody setterBody))
  | addAutoProperty t name signature access =>
    return .property (← Batch.onType t (Descriptor.addAutoProperty u name signature access))
  | addEvent t name eventType add remove raise =>
    return .event (← Batch.onType t (Descriptor.addEvent u name eventType add remove raise))
  | addInterface t interface allow => do
    Batch.onType t (Descriptor.addInterface u interface allow)
    return .done
  | addAttribute t a => do
    Batch.onType t (Descriptor.addAttribute a)
    return .done
  | addMethodAttribute t m a => do
    Batch.onType t (Descriptor.addMethodAttribute m a)
    return .done
  | addFieldAttribute t f a => do
    Batch.onType t (Descriptor.addFieldAttribute f a)
    return .done
  | overrideMethod t m => do
    let (handle, created) ← Batch.onType t (Descriptor.getOrAddOverride u m)
    return .registered handle created
  | implementMethod t m => do
    let (handle, created) ← Batch.onType t (Descriptor.getOrAddImplementation u m)
    return .registered handle created
  | askAbstract t => return .truth (← Batch.askAbstract u t)

def run (u : Universe) (b : Batch) (edits : List Edit) : Batch :=
  edits.foldl (fun b e => ((e.perform u).start b).2) b

end Edit

end TypeLoom
