import ClassWeave.Event.Class
import ClassWeave.Method.Assembly

/-!
# Building class files

Builds a class file from events. Constants are added to a pool that may already hold those of the class that the
events come from; entries keep their indices, so attributes that are carried along stay valid. The class itself is
added to the hierarchy, since frames of its methods may need it.
-/

namespace ClassWeave

/-- A class header with pool indices for names. -/
structure StoredHeader where
  version : Version
  access : UInt16
  name : BinaryName
  thisClass : UInt16
  superclass : Option UInt16
  interfaces : List UInt16
deriving DecidableEq, Repr

/-- A class file as far as its events have come. -/
structure ClassBuilder where
  pool : Pool
  hierarchy : Hierarchy
  header : Option StoredHeader
  fields : Array Member
  methods : Array Member
  attributes : Array (Attribute UInt16)

/-- Something that adds to a class file under construction. -/
abbrev Building := EStateM Fault ClassBuilder

namespace Building

variable {α : Type}

/-- Assembles something with the pool of the class. -/
def assemble (action : Assembly α) : Building α
  | ⟨pool, hierarchy, header, fields, methods, attributes⟩ =>
    match action pool with
    | .ok value pool => .ok value ⟨pool, hierarchy, header, fields, methods, attributes⟩
    | .error fault pool => .error fault ⟨pool, hierarchy, header, fields, methods, attributes⟩

/-- Adds constants to the pool of the class. -/
def intern (action : Interning α) : Building α :=
  assemble (Assembly.intern action)

/-- Carries on with a result that may be a fault. -/
def ofExcept (result : Except Fault α) : Building α :=
  assemble (Assembly.ofExcept result)

end Building

namespace Interning

/-- An attribute with its name in the pool. -/
def storeAttribute (entry : Attribute String) : Interning (Attribute UInt16) :=
  return ⟨← text entry.name, entry.info⟩

end Interning

namespace ClassBuilder

/-- A class file without anything but constants and what is known of other classes. -/
def start (pool : Pool) (hierarchy : Hierarchy) : ClassBuilder :=
  ⟨pool, hierarchy, none, #[], #[], #[]⟩

/-! ## Headers, fields and attributes -/

/-- Adds the header, and the class to the hierarchy. -/
def addHeader (header : ClassHeader) : Building Unit := do
  modify fun builder => { builder with
    hierarchy := builder.hierarchy.add
      ⟨header.name, header.superclass, header.interfaces,
        AccessFlags.has header.access AccessFlags.interfaceBit⟩ }
  let stored ← Building.intern do
    let thisClass ← Interning.classRef header.name.text
    let superclass ←
      match header.superclass with
      | some name => pure (some (← Interning.classRef name.text))
      | none => pure none
    let interfaces ← header.interfaces.mapM fun name => Interning.classRef name.text
    return (⟨header.version, header.access, header.name, thisClass, superclass, interfaces⟩ : StoredHeader)
  modify fun builder => { builder with header := some stored }

/-- Adds a field. -/
def addField (field : FieldHeader) : Building Unit := do
  let stored ← Building.intern do
    let name ← Interning.text field.name.text
    let descriptor ← Interning.text field.type.render
    return (⟨field.access, name, descriptor, ← field.attributes.mapM Interning.storeAttribute⟩ : Member)
  modify fun builder => { builder with fields := builder.fields.push stored }

/-- Adds an attribute of the class. -/
def addAttribute (entry : Attribute String) : Building Unit := do
  let stored ← Building.intern (Interning.storeAttribute entry)
  modify fun builder => { builder with attributes := builder.attributes.push stored }

/-! ## Methods -/

/-- What the analysis of a method needs to know. Frames are needed from a certain version on. -/
def methodContext (header : StoredHeader) (hierarchy : Hierarchy) (method : MethodHeader) : MethodContext where
  method := ⟨header.name, method.name, method.descriptor⟩
  isStatic := method.isStatic
  strict := header.version.usesFrames
  hierarchy := hierarchy

/-- A method with its body, which comes before its other attributes. -/
def storeMethod (context : MethodContext) (method : MethodHeader) (code : Option MethodCode) :
    Assembly Member := do
  let bodies ←
    match code with
    | some code =>
      let body ← code.assemble context
      pure [← Assembly.attributeOf CodeAttribute.attributeName body.encode]
    | none => pure []
  Assembly.intern do
    let others ← method.attributes.mapM Interning.storeAttribute
    let name ← Interning.text method.name.text
    let descriptor ← Interning.text method.descriptor.render
    return ⟨method.access, name, descriptor, bodies ++ others⟩

/-- Ends a method, which adds it to the class. There has to be a header by then. -/
def finishMethod (method : MethodHeader) (code : Option MethodCode) : Building Unit := do
  let builder ← get
  match builder.header with
  | none => throw .missingHeader
  | some header =>
    let context := methodContext header builder.hierarchy method
    let stored ← Building.assemble (storeMethod context method code)
    modify fun builder => { builder with methods := builder.methods.push stored }

/-- Takes the next event of a method. The method has a body from the first event other than its end. -/
def methodStep (method : MethodHeader) (code : Option MethodCode) : MethodEvent → Building (Option MethodCode)
  | .finish => do
    finishMethod method code
    return code
  | event => return some (← Building.ofExcept ((code.getD .empty).add event))

/-! ## Events -/

/-- Takes the next event of the class. -/
def step : ClassEvent → Building Unit
  | .header header => addHeader header
  | .field field => addField field
  | .method method body => do let _ ← body.foldlM (methodStep method) none
  | .classAttribute entry => addAttribute entry
  | .finish => pure ()

/-- The class file, once its header is there. -/
def toClassFile (builder : ClassBuilder) : Except Fault ClassFile :=
  match builder.header with
  | none => .error .missingHeader
  | some header => .ok {
      version := header.version
      pool := builder.pool
      access := header.access
      thisClass := header.thisClass
      superclass := header.superclass
      interfaces := header.interfaces
      fields := builder.fields.toList
      methods := builder.methods.toList
      attributes := builder.attributes.toList }

/-- Takes events in order, up to the first that fails. -/
def addAll (builder : ClassBuilder) (events : List ClassEvent) : Except Fault ClassBuilder :=
  match (events.forM step : Building Unit) builder with
  | .ok _ builder => .ok builder
  | .error fault _ => .error fault

/-- Takes all events of a replay, and then its fault. -/
def addReplay (builder : ClassBuilder) (replay : Replay) : Except Fault ClassBuilder := do
  let builder ← builder.addAll replay.events
  match replay.fault with
  | none => return builder
  | some reason => throw (.malformed reason)

end ClassBuilder

namespace ClassFile

/-- Builds the class anew from its events, on its own constants or on others. -/
def rebuildOn (file : ClassFile) (pool : Pool) (hierarchy : Hierarchy)
    (change : List ClassEvent → List ClassEvent) :
    Except Fault Bytes := do
  let replay := file.replay true
  let builder ← (ClassBuilder.start pool hierarchy).addReplay ⟨change replay.events, replay.fault⟩
  return (← builder.toClassFile).encode

/-- Builds the class anew from its events. Constants that are not used any more stay where they are. -/
def rebuild (file : ClassFile) (hierarchy : Hierarchy) : Except Fault Bytes :=
  file.rebuildOn file.pool hierarchy id

/-- Reads a class and builds it anew, with nothing changed. -/
def rewrite (hierarchy : Hierarchy) (bytes : Bytes) : Except Fault Bytes := do
  let file ← (decode bytes).mapError .malformed
  file.rebuild hierarchy

end ClassFile

end ClassWeave
