import SinkReach.Proofs.Ieee.Widening
import SinkReach.Proofs.Program.Decoding
import SinkReach.Proofs.Program.TypeName
import SinkReach.Route.TaintPath

/-!
Bodies and taint paths are read back from the documents written for them. A document holds the types that
some text spells, the integers of the machine and the floats that are finite; whatever is made of these
is written within the depth of a document and read as what it was, part by part.
-/
namespace SinkReach

open Decode

/-- Whether a bit pattern is a finite number. -/
def Precision.IsFinite (p : Precision) (bits : Nat) : Prop :=
  bits < 2 ^ p.format.width ∧ p.magnitude bits < p.infinity

section Writable

/-! What a document can hold. -/

def Ty.Writable (ty : Ty) : Prop := ∃ s, Ty.parse s = .ok ty

structure Method.Writable (m : Method) : Prop where
  params : ∀ ty ∈ m.params, ty.Writable
  ret : m.ret.Writable

def Field.Writable (f : Field) : Prop := f.ty.Writable

def Local.Writable (l : Local) : Prop := l.ty.Writable

def Constant.Writable : Constant → Prop
  | int n => IsSigned 32 n
  | long n => IsSigned 64 n
  | float bits => Precision.single.IsFinite bits
  | double bits => Precision.double.IsFinite bits
  | null | string _ | classLiteral _ => True

def Operand.Writable : Operand → Prop
  | loc l => l.Writable
  | const c => c.Writable

@[mk_iff] structure Invoke.Writable (i : Invoke) : Prop where
  method : i.method.Writable
  base : ∀ l ∈ i.base, l.Writable
  args : ∀ v ∈ i.args, v.Writable

def Rvalue.Writable : Rvalue → Prop
  | use v | neg v | length v => v.Writable
  | binary _ lhs rhs ty => lhs.Writable ∧ rhs.Writable ∧ ty.Writable
  | cast v ty | instanceOf v ty | newArray ty v => v.Writable ∧ ty.Writable
  | new ty => ty.Writable
  | instanceField base field => base.Writable ∧ field.Writable
  | staticField field => field.Writable
  | arrayElement base index ty => base.Writable ∧ index.Writable ∧ ty.Writable
  | invoke call => call.Writable

def Place.Writable : Place → Prop
  | loc l => l.Writable
  | instanceField base field => base.Writable ∧ field.Writable
  | staticField field => field.Writable
  | arrayElement base index => base.Writable ∧ index.Writable

def IdentitySource.Writable : IdentitySource → Prop
  | parameter n => IsUnsigned 64 n
  | this | caughtException => True

def InstrId.Writable (i : InstrId) : Prop := IsUnsigned 32 i

def SwitchTable.Writable : SwitchTable → Prop
  | table low high targets => IsSigned 32 low ∧ IsSigned 32 high ∧ ∀ i ∈ targets, InstrId.Writable i
  | lookup values targets => (∀ n ∈ values, IsSigned 32 n) ∧ ∀ i ∈ targets, InstrId.Writable i

def Instruction.Writable : Instruction → Prop
  | assign place value => place.Writable ∧ value.Writable
  | identity target source => target.Writable ∧ source.Writable
  | branch condition target => condition.Writable ∧ InstrId.Writable target
  | switch key table default => key.Writable ∧ table.Writable ∧ InstrId.Writable default
  | invoke call => call.Writable
  | ret v | throw v | monitor _ v => v.Writable
  | goto target => InstrId.Writable target
  | retVoid | nop => True

structure Body.Writable (b : Body) : Prop where
  method : b.method.Writable
  locals : ∀ l ∈ b.locals, l.Writable
  instructions : ∀ i ∈ b.instructions, i.Writable
  successors : ∀ is ∈ b.successors, ∀ i ∈ is, InstrId.Writable i

@[mk_iff] structure TaintEntry.Writable (e : TaintEntry) : Prop where
  method : e.method.Writable
  instr : InstrId.Writable e.instr
  callSite : ∀ i ∈ e.callSite, InstrId.Writable i
  callMethod : ∀ m ∈ e.callMethod, m.Writable

def TaintPath.Writable (p : TaintPath) : Prop := ∀ e ∈ p.entries, e.Writable

end Writable

section Depth

/-! How deep the parts of a document nest. -/

variable {depth : Nat}

@[simp] theorem Ty.isReadable_encode (ty : Ty) : ty.encode.isReadable depth := Json.isReadable_str _

@[simp] theorem Method.isReadable_encode (m : Method) : m.encode.isReadable (depth + 2) := by
  simp [encode]

@[simp] theorem Field.isReadable_encode (f : Field) : f.encode.isReadable (depth + 1) := by
  simp [encode]

@[simp] theorem Local.isReadable_encode (l : Local) : l.encode.isReadable (depth + 1) := by
  simp [encode]

@[simp] theorem Constant.isReadable_encode (c : Constant) : c.encode.isReadable (depth + 1) := by
  cases c <;> simp [encode, tag]

@[simp] theorem Operand.isReadable_encode (v : Operand) : v.encode.isReadable (depth + 2) := by
  cases v <;> simp [encode]

@[simp] theorem Operator.isReadable_encode (op : Operator) : op.encode.isReadable depth :=
  Json.isReadable_str _

@[simp] theorem Invoke.isReadable_encode (i : Invoke) : i.encode.isReadable (depth + 4) := by
  simp [encode]

@[simp] theorem Rvalue.isReadable_encode (r : Rvalue) : r.encode.isReadable (depth + 5) := by
  cases r <;> simp [encode, tag]

@[simp] theorem Place.isReadable_encode (p : Place) : p.encode.isReadable (depth + 3) := by
  cases p <;> simp [encode, Rvalue.tag]

@[simp] theorem InstrId.isReadable_encode (i : InstrId) : (encode i).isReadable depth :=
  Json.isReadable_int _

@[simp] theorem IdentitySource.isReadable_encode (s : IdentitySource) :
    s.encode.isReadable (depth + 1) := by
  cases s <;> simp [encode, Json.ofNat]

@[simp] theorem SwitchTable.isReadable_encode (t : SwitchTable) : t.encode.isReadable (depth + 2) := by
  cases t <;> simp [encode, Rvalue.tag]

@[simp] theorem Instruction.isReadable_encode (i : Instruction) : i.encode.isReadable (depth + 6) := by
  cases i <;> simp [encode, tag]

theorem Body.isReadable_encode (b : Body) : b.encode.isReadable (depth + 8) := by
  simp [encode]

@[simp] theorem TaintEntry.isReadable_encode (e : TaintEntry) : e.encode.isReadable (depth + 3) := by
  cases site : e.callSite <;> cases method : e.callMethod <;> simp [encode, site, method]

theorem TaintPath.isReadable_encode (p : TaintPath) : p.encode.isReadable (depth + 4) := by
  simp [encode]

end Depth

theorem Ty.writable_iff {ty : Ty} : ty.Writable ↔ ty.isSpelled := Ty.isSpelled_iff.symm

theorem Ty.Writable.decode_encode {ty : Ty} (h : ty.Writable) : Ty.decode ty.encode = .ok ty := by
  have parsed : Ty.parse ty.text = .ok ty := Ty.parse_text (Ty.writable_iff.1 h)
  simp [decode, encode, str_str, parsed]

theorem Method.Writable.decode_encode {m : Method} (h : m.Writable) : Method.decode m.encode = .ok m := by
  have params : list Ty.decode (.ofList Ty.encode m.params) = .ok m.params :=
    list_ofList fun ty hty => (h.params ty hty).decode_encode
  simp [decode, encode, fields_obj, str_str, params, h.ret.decode_encode]

theorem Field.Writable.decode_encode {f : Field} (h : f.Writable) : Field.decode f.encode = .ok f := by
  simp [decode, encode, fields_obj, str_str, flag_bool, Ty.Writable.decode_encode h]

theorem Local.Writable.decode_encode {l : Local} (h : l.Writable) : Local.decode l.encode = .ok l := by
  simp [decode, encode, fields_obj, str_str, Ty.Writable.decode_encode h]

/-- A finite single is written as a double and rounded back to itself. -/
theorem real_single {bits : Nat} (h : Precision.single.IsFinite bits) :
    real .single (.float (Precision.single.convert .double bits)) = .ok bits := by
  have exact := Precision.convert_convert_finite (Precision.single.isNegative bits) h.2
  rw [Precision.withSign_magnitude h.1] at exact
  exact congrArg Except.ok exact

theorem Constant.decodePart_tag (kind : String) (content : Json) :
    decodePart (tag kind content) = ofKind kind (some content) := rfl

theorem Constant.Writable.decode_encode {c : Constant} (h : c.Writable) :
    decodePart c.encode = .ok c := by
  cases c with
  | int n => exact (decodePart_tag ..).trans (congrArg (Except.map int) (signed_int h))
  | long n => exact (decodePart_tag ..).trans (congrArg (Except.map long) (signed_int h))
  | float bits => exact (decodePart_tag ..).trans (congrArg (Except.map float) (real_single h))
  | double bits => rfl
  | null => rfl
  | string s => rfl
  | classLiteral s => rfl

theorem Operand.Writable.decode_encode {v : Operand} (h : v.Writable) : decode v.encode = .ok v := by
  cases v with
  | loc l => exact congrArg (Except.map loc) (Local.Writable.decode_encode h)
  | const c => exact congrArg (Except.map const) (Constant.Writable.decode_encode h)

theorem Operator.decodePart_encode (op : Operator) : decodePart op.encode = .ok op :=
  named_nameOf (by decide) (by cases op <;> decide)

theorem InvokeKind.decode_name (kind : InvokeKind) : decode (.str kind.name) = .ok kind :=
  named_nameOf (by decide) (by cases kind <;> decide)

theorem Invoke.Writable.decode_encode {i : Invoke} (h : i.Writable) : Invoke.decode i.encode = .ok i := by
  have base : nullable Local.decode (.ofOption Local.encode i.base) = .ok i.base :=
    nullable_ofOption nofun fun l hl => Local.Writable.decode_encode (h.base l hl)
  have args : list Operand.decode (.ofList Operand.encode i.args) = .ok i.args :=
    list_ofList fun v hv => (h.args v hv).decode_encode
  simp [decode, encode, fields_obj, InvokeKind.decode_name, h.method.decode_encode, base, args]

theorem Rvalue.Writable.decode_encode {r : Rvalue} (h : r.Writable) : decode r.encode = .ok r := by
  -- The kind selects the branch, and leaves its fields to be read.
  cases r <;> refine (tagged_bind rfl (by simp) _).trans ?_
  case use v => exact fields_single use (Operand.Writable.decode_encode h)
  case binary op lhs rhs ty =>
    simp [fields_obj, Operator.decodePart_encode, h.1.decode_encode, h.2.1.decode_encode,
      h.2.2.decode_encode]
  case neg v => exact fields_single neg (Operand.Writable.decode_encode h)
  case cast v ty => simp [fields_obj, h.1.decode_encode, h.2.decode_encode]
  case instanceOf v ty => simp [fields_obj, h.1.decode_encode, h.2.decode_encode]
  case new ty => exact fields_single new (Ty.Writable.decode_encode h)
  case newArray element size => simp [fields_obj, h.1.decode_encode, h.2.decode_encode]
  case length array => exact fields_single length (Operand.Writable.decode_encode h)
  case instanceField base field => simp [fields_obj, h.1.decode_encode, h.2.decode_encode]
  case staticField field => exact fields_single staticField (Field.Writable.decode_encode h)
  case arrayElement base index ty =>
    simp [fields_obj, h.1.decode_encode, h.2.1.decode_encode, h.2.2.decode_encode]
  case invoke call => exact fields_single invoke (Invoke.Writable.decode_encode h)

theorem Place.Writable.decode_encode {p : Place} (h : p.Writable) : decode p.encode = .ok p := by
  cases p <;> refine (tagged_bind rfl (by simp) _).trans ?_
  case loc l => exact fields_single loc (Local.Writable.decode_encode h)
  case instanceField base field => simp [fields_obj, h.1.decode_encode, h.2.decode_encode]
  case staticField field => exact fields_single staticField (Field.Writable.decode_encode h)
  case arrayElement base index => simp [fields_obj, h.1.decode_encode, h.2.decode_encode]

theorem IdentitySource.decode_parameter (j : Json) :
    decode (.obj [("parameter", j)]) = (unsigned 64 j).map parameter := rfl

theorem IdentitySource.Writable.decode_encode {s : IdentitySource} (h : s.Writable) :
    decode s.encode = .ok s := by
  cases s with
  | parameter n => rw [encode, decode_parameter, unsigned_ofNat h]; rfl
  | this => rfl
  | caughtException => rfl

theorem InstrId.Writable.decode_encode {i : InstrId} (h : InstrId.Writable i) :
    InstrId.decode (InstrId.encode i) = .ok i := unsigned_ofNat h

theorem InstrId.list_encode {is : List InstrId} (h : ∀ i ∈ is, InstrId.Writable i) :
    list InstrId.decode (.ofList InstrId.encode is) = .ok is :=
  list_ofList fun i hi => (h i hi).decode_encode

theorem SwitchTable.Writable.decode_encode {t : SwitchTable} (h : t.Writable) :
    decode t.encode = .ok t := by
  cases t <;> refine (tagged_bind rfl (by simp) _).trans ?_
  case table low high targets =>
    simp [fields_obj, signed_int h.1, signed_int h.2.1, InstrId.list_encode h.2.2]
  case lookup values targets =>
    have values_read : list (signed 32) (.ofList .int values) = .ok values :=
      list_ofList fun n hn => signed_int (h.1 n hn)
    simp [fields_obj, values_read, InstrId.list_encode h.2]

theorem Instruction.Writable.decode_encode {i : Instruction} (h : i.Writable) :
    decode i.encode = .ok i := by
  cases i <;> refine (tagged_bind rfl (by simp) _).trans ?_
  case assign place value => simp [fields_obj, h.1.decode_encode, h.2.decode_encode]
  case identity target source => simp [fields_obj, h.1.decode_encode, h.2.decode_encode]
  case branch condition target => simp [fields_obj, h.1.decode_encode, h.2.decode_encode]
  case switch key table default =>
    simp [fields_obj, h.1.decode_encode, h.2.1.decode_encode, h.2.2.decode_encode]
  case invoke call => exact fields_single invoke (Invoke.Writable.decode_encode h)
  case ret v => exact fields_single ret (Operand.Writable.decode_encode h)
  case retVoid => rfl
  case throw v => exact fields_single throw (Operand.Writable.decode_encode h)
  case goto target => exact fields_single goto (InstrId.Writable.decode_encode h)
  case nop => rfl
  case monitor enter v => simp [fields_obj, flag_bool, Operand.Writable.decode_encode h]

/-- The parts of a body make that body. -/
theorem Body.ofSuccessors_self (b : Body) :
    ofSuccessors b.method b.locals b.instructions b.successors = .ok b := by
  rw [ofSuccessors, dif_neg b.nonempty, dif_pos b.successors_length]
  split
  next i bad =>
    have outside : b.instructions.length ≤ i := by simpa using List.find?_some bad
    exact absurd (b.edges_lt i (List.mem_of_find?_eq_some bad)) (Nat.not_lt.2 outside)
  next => rfl

theorem Body.Writable.decode_encode {b : Body} (h : b.Writable) : Body.decode b.encode = .ok b := by
  have locals : list Local.decode (.ofList Local.encode b.locals) = .ok b.locals :=
    list_ofList fun l hl => Local.Writable.decode_encode (h.locals l hl)
  have instructions : list (kept instructionDepth Instruction.decode)
      (.ofList Instruction.encode b.instructions) = .ok b.instructions :=
    list_ofList fun i hi => kept_ok i.isReadable_encode (h.instructions i hi).decode_encode
  have successors : nullable (list (list InstrId.decode))
      (.ofList (.ofList InstrId.encode) b.successors) = .ok (some b.successors) :=
    congrArg (Except.map some) (list_ofList fun is his => InstrId.list_encode (h.successors is his))
  simp [decode, encode, fields_obj, h.method.decode_encode, locals, instructions, successors,
    ofSuccessors_self]

theorem EntryKind.decode_name (kind : EntryKind) : decode (.str kind.name) = .ok kind :=
  named_nameOf (by decide) (by cases kind <;> decide)

theorem TaintEntry.Writable.decode_encode {e : TaintEntry} (h : e.Writable) :
    TaintEntry.decode e.encode = .ok e := by
  obtain ⟨kind, method, instr, site?, caller?⟩ := e
  have method_read := h.method.decode_encode
  have instr_read := h.instr.decode_encode
  have site : ∀ i ∈ site?, nullable InstrId.decode (InstrId.encode i) = .ok (some i) :=
    fun i hi => nullable_value nofun (h.callSite i hi).decode_encode
  have caller : ∀ m ∈ caller?, nullable Method.decode m.encode = .ok (some m) :=
    fun m hm => nullable_value nofun (h.callMethod m hm).decode_encode
  -- What is absent is left out, so there are four forms of the object.
  cases site? <;> cases caller? <;>
    simp [decode, encode, fields_obj, EntryKind.decode_name, method_read, instr_read, site, caller]

theorem TaintPath.Writable.decode_encode {p : TaintPath} (h : p.Writable) :
    TaintPath.decode p.encode = .ok p := by
  have entries : list TaintEntry.decode p.encode = .ok p.entries :=
    list_ofList fun e he => (h e he).decode_encode
  simp [decode, entries, ofEntries?, p.nonempty]

/-- A body or a taint path is written within the depth of a document, and read as it was. -/
theorem decode_encode_documents :
    (∀ b : Body, b.Writable →
      b.encode.isReadable Json.greatestDepth ∧ Body.decode b.encode = .ok b) ∧
    (∀ p : TaintPath, p.Writable →
      p.encode.isReadable Json.greatestDepth ∧ TaintPath.decode p.encode = .ok p) :=
  ⟨fun b h => ⟨b.isReadable_encode, h.decode_encode⟩,
    fun p h => ⟨p.isReadable_encode, h.decode_encode⟩⟩

/-- A method that sends the first of some floats away unless it is 0.1, with edges of its own. -/
def Body.guarded : Body where
  method := ⟨"app.Main", "run", [.array .float], .void⟩
  locals := [⟨"xs", .array .float⟩, ⟨"x", .float⟩, ⟨"c", .int⟩, ⟨"out", .ref "app.Sink"⟩]
  instructions := [
    .identity ⟨"xs", .array .float⟩ (.parameter 0),
    .assign (.loc ⟨"x", .float⟩) (.arrayElement ⟨"xs", .array .float⟩ (.const (.int 0)) .float),
    .assign (.loc ⟨"c", .int⟩) (.binary .cmpl (.loc ⟨"x", .float⟩) (.const (.float 0x3dcccccd)) .int),
    .switch (.loc ⟨"c", .int⟩) (.lookup [-1, 0] [4, 6]) 4,
    .assign (.loc ⟨"out", .ref "app.Sink"⟩) (.new (.ref "app.Sink")),
    .invoke ⟨.virtual, ⟨"app.Sink", "put", [.float], .void⟩, some ⟨"out", .ref "app.Sink"⟩,
      [.loc ⟨"x", .float⟩]⟩,
    .retVoid]
  successors := [[1], [2], [3], [6, 4], [5], [6], []]
  nonempty := by decide
  successors_length := by decide
  edges_lt := by decide

/-- A return into the call of that body, and the end of the body as the sink. -/
def TaintPath.returning : TaintPath where
  entries := [
    ⟨.ret, ⟨"app.Sink", "put", [.float], .void⟩, 7, some 5, some Body.guarded.method⟩,
    ⟨.sink, Body.guarded.method, 6, none, none⟩]
  nonempty := by decide

theorem decode_encode_guarded_returning :
    (Body.guarded.Writable ∧ Body.decode Body.guarded.encode = .ok Body.guarded) ∧
      TaintPath.returning.Writable ∧
        TaintPath.decode TaintPath.returning.encode = .ok TaintPath.returning := by
  have method : Body.guarded.method.Writable :=
    ⟨by simp [Body.guarded, Ty.writable_iff, Ty.isSpelled], Ty.writable_iff.2 rfl⟩
  have tenth : Precision.single.IsFinite 0x3dcccccd := ⟨by decide, by decide⟩
  have sinkName : Ty.isClassName "app.Sink" := by decide
  have put : Method.Writable ⟨"app.Sink", "put", [.float], .void⟩ :=
    ⟨by simp [Ty.writable_iff, Ty.isSpelled], Ty.writable_iff.2 rfl⟩
  have body : Body.guarded.Writable := {
    method
    locals := by simp [Body.guarded, Local.Writable, Ty.writable_iff, Ty.isSpelled, sinkName]
    instructions := by
      simp [Body.guarded, Instruction.Writable, Place.Writable, Rvalue.Writable, Operand.Writable,
        Constant.Writable, IdentitySource.Writable, SwitchTable.Writable, InstrId.Writable, Local.Writable,
        Ty.writable_iff, Ty.isSpelled, IsSigned, IsUnsigned, Invoke.writable_iff, sinkName, tenth, put]
    successors := by simp [Body.guarded, InstrId.Writable, IsUnsigned] }
  have path : TaintPath.returning.Writable := by
    simp [TaintPath.returning, TaintPath.Writable, TaintEntry.writable_iff, InstrId.Writable, IsUnsigned,
      put, method]
  exact ⟨⟨body, (decode_encode_documents.1 _ body).2⟩, path, (decode_encode_documents.2 _ path).2⟩

end SinkReach
