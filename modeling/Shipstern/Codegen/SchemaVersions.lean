import Shipstern.Codegen.MessageCodecs

/-!
# Versions of a program

A writer and a reader may be generated from two versions of a program. Between them a struct may
gain and lose fields, a union may gain variants, and there may be types that only one of them
has. What a reader is left with is then a matter of the types alone: what both know arrives, and
the rest is the default.
-/

namespace Shipstern.Codegen

open Codama

/-- The fields of a struct in the version of the writer and in the one of the reader. -/
inductive FieldsChange : List FieldIr → List FieldIr → Type
  | nil : FieldsChange [] []
  | kept (f : FieldIr) {ws rs : List FieldIr} (rest : FieldsChange ws rs) :
      FieldsChange (f :: ws) (f :: rs)
  | added (f : FieldIr) {ws rs : List FieldIr} (rest : FieldsChange ws rs) :
      FieldsChange ws (f :: rs)
  | dropped (f : FieldIr) {ws rs : List FieldIr} (rest : FieldsChange ws rs) :
      FieldsChange (f :: ws) rs

/-- The variants of a union. The reader knows those of the writer. -/
inductive VariantsChange {α : Type} : List α → List α → Type
  | nil : VariantsChange [] []
  | kept (a : α) {ws rs : List α} (rest : VariantsChange ws rs) : VariantsChange (a :: ws) (a :: rs)
  | added (a : α) {ws rs : List α} (rest : VariantsChange ws rs) : VariantsChange ws (a :: rs)

/-- A type that both versions have, or that only one of them has: the other has a struct without
fields there. -/
inductive DeclChange : MessageDecl → MessageDecl → Type
  | struct (scope scope' : Scope) (name : Name) (kind kind' : TypeKindIr) {ws rs : List FieldIr}
      (fields : FieldsChange ws rs) :
      DeclChange (.struct scope ⟨name, ws, kind⟩) (.struct scope' ⟨name, rs, kind'⟩)
  | enum {first first' : OneofVariantIr} {rest rest' : List OneofVariantIr}
      (variants : VariantsChange (first :: rest) (first' :: rest')) :
      DeclChange (.enum first rest) (.enum first' rest')
  | added (scope : Scope) (name : Name) (kind : TypeKindIr) (d : MessageDecl) :
      DeclChange (.struct scope ⟨name, [], kind⟩) d
  | dropped (scope : Scope) (name : Name) (kind : TypeKindIr) (d : MessageDecl) :
      DeclChange d (.struct scope ⟨name, [], kind⟩)

inductive WrapperChange : WrapperDecl → WrapperDecl → Type
  | dispatch (scope scope' : Scope) (name : Name) {ws rs : List OneofVariantIr}
      (variants : VariantsChange ws rs) :
      WrapperChange (.dispatch scope name ws) (.dispatch scope' name rs)
  | account {ws rs : List Name} (variants : VariantsChange (numbered ws) (numbered rs)) :
      WrapperChange (.account ws) (.account rs)

/-- Two versions of a program. -/
abbrev CrateChange (old new : Crate) := (path : RustPath) → DeclChange (old path) (new path)

/-! ## No change, and nothing left -/

def FieldsChange.refl : (fields : List FieldIr) → FieldsChange fields fields
  | [] => .nil
  | f :: fields => .kept f (refl fields)

def FieldsChange.dropAll : (fields : List FieldIr) → FieldsChange fields []
  | [] => .nil
  | f :: fields => .dropped f (dropAll fields)

def VariantsChange.refl {α : Type} : (variants : List α) → VariantsChange variants variants
  | [] => .nil
  | a :: variants => .kept a (refl variants)

def VariantsChange.map {α β : Type} (g : α → β) {ws rs : List α} :
    VariantsChange ws rs → VariantsChange (ws.map g) (rs.map g)
  | .nil => .nil
  | .kept a rest => .kept (g a) (rest.map g)
  | .added a rest => .added (g a) (rest.map g)

def DeclChange.refl : (decl : MessageDecl) → DeclChange decl decl
  | .struct scope ⟨name, fields, kind⟩ => .struct scope scope name kind kind (.refl fields)
  | .enum first rest => .enum (.refl (first :: rest))

def WrapperChange.refl : (decl : WrapperDecl) → WrapperChange decl decl
  | .dispatch scope name variants => .dispatch scope scope name (.refl variants)
  | .account names => .account (.refl (numbered names))

/-! ## Tags -/

/-- The tags in use in one of the versions. -/
def FieldsChange.tags {ws rs : List FieldIr} : FieldsChange ws rs → List Nat
  | .nil => []
  | .kept f rest | .added f rest | .dropped f rest => f.tag :: rest.tags

def FieldsChange.Drops {ws rs : List FieldIr} : FieldsChange ws rs → Prop
  | .nil => False
  | .kept _ rest | .added _ rest => rest.Drops
  | .dropped _ _ => True

/-- Tags that tell apart what they stand for. -/
def WellTagged (tags : List Nat) : Prop := tags.Nodup ∧ ∀ tag ∈ tags, ValidTag tag

instance (tags : List Nat) : Decidable (WellTagged tags) := inferInstanceAs (Decidable (_ ∧ _))

def MessageDecl.tags : MessageDecl → List Nat
  | .struct _ t => t.fields.map (·.tag)
  | .enum first rest => (first :: rest).map (·.tag)

def WrapperDecl.tags : WrapperDecl → List Nat
  | .dispatch _ _ variants => variants.map (·.tag)
  | .account names => (numbered names).map (·.1)

/-- The tags of each declaration differ. -/
def Crate.TagsDiffer (crate : Crate) : Prop := ∀ path, WellTagged (crate path).tags

/-- No tag comes back as another field or variant. -/
def DeclChange.KeepsTags {d d' : MessageDecl} : DeclChange d d' → Prop
  | .struct _ _ _ _ _ fields => WellTagged fields.tags
  | @DeclChange.enum _ first' _ rest' _ =>
      WellTagged ((first' :: rest').map (·.tag))
  | .added _ _ _ d | .dropped _ _ _ d => WellTagged d.tags

def WrapperChange.KeepsTags {d d' : WrapperDecl} : WrapperChange d d' → Prop
  | @WrapperChange.dispatch _ _ _ _ rs _ => WellTagged (rs.map (·.tag))
  | @WrapperChange.account _ rs _ => WellTagged ((numbered rs).map (·.1))

/-! ## Paths -/

/-- A message in a field is at one path in both scopes. -/
def SamePath (scope scope' : Scope) (f : FieldIr) : Prop :=
  ∀ msg, f.fieldType = .message msg → scope.resolveMsg msg = scope'.resolveMsg msg

/-- A field of both versions stands for the same type in both of them. -/
def DeclChange.KeepsPaths {d d' : MessageDecl} : DeclChange d d' → Prop
  | @DeclChange.struct scope scope' _ _ _ ws rs _ => ∀ f ∈ ws, f ∈ rs → SamePath scope scope' f
  | .enum _ | .added _ _ _ _ | .dropped _ _ _ _ => True

def WrapperChange.KeepsPaths {d d' : WrapperDecl} : WrapperChange d d' → Prop
  | @WrapperChange.dispatch scope scope' _ ws _ _ =>
      ∀ v ∈ ws, ∀ f ∈ payloadFields v.messageType, SamePath scope scope' f
  | .account _ => True

/-- A reader that does not know a field has to skip it. -/
def DeclChange.Drops {d d' : MessageDecl} : DeclChange d d' → Prop
  | .struct _ _ _ _ _ fields => fields.Drops
  | .enum _ | .added _ _ _ _ => False
  | .dropped _ _ _ _ => True

/-! ## What arrives -/

section Arrive

variable (prost : Prost)

section Fields

variable {old new : Name → Message prost.Ctx} (below : ∀ msg, (old msg).Value → (new msg).Value)
  (structName : Name)

def arriveMessage (field : Name) (tag : Nat) {w r : Message prost.Ctx}
    (below : w.Value → r.Value) : (label : LabelIr) →
      (messageField prost structName field tag w label).Value →
        (messageField prost structName field tag r label).Value
  | .singular => below
  | .optional _ => Option.map below
  | .repeated | .fixedArray _ => List.map below

def arriveField : (f : FieldIr) → (emitProstFieldCodegen prost old structName f).Value →
    (emitProstFieldCodegen prost new structName f).Value
  | ⟨name, tag, label, .message msg⟩ => arriveMessage prost structName name tag (below msg) label
  | ⟨name, tag, label, .scalar s⟩ => (scalarField prost structName name tag s label).sent

def arriveFields {ws rs : List FieldIr} : FieldsChange ws rs →
    ProstField.Values (ws.map (emitProstFieldCodegen prost old structName)) →
      ProstField.Values (rs.map (emitProstFieldCodegen prost new structName))
  | .nil, () => ()
  | .kept f rest, (v, vs) => (arriveField prost below structName f v, arriveFields rest vs)
  | .added f rest, vs =>
      ((emitProstFieldCodegen prost new structName f).default, arriveFields rest vs)
  | .dropped _ rest, (_, vs) => arriveFields rest vs

end Fields

def arriveChoice {α : Type} {tag : α → Nat} {old new : α → Message prost.Ctx}
    (below : ∀ a, (old a).Value → (new a).Value) {ws rs : List α} : VariantsChange ws rs →
      OneofValue (ws.map fun a => (tag a, old a)) → OneofValue (rs.map fun a => (tag a, new a))
  | .kept a _, .inl v => .inl (below a v)
  | .kept _ rest, .inr later => .inr (arriveChoice below rest later)
  | .added _ rest, v => .inr (arriveChoice below rest v)

variable {old new : RustPath → Message prost.Ctx}
  (below : ∀ path, (old path).Value → (new path).Value)

/-- What arrives under a path of what was sent under one. Nothing does under another path. -/
def arriveAt (path path' : RustPath) : (old path).Value → (new path').Value :=
  if h : path = path' then fun v => h ▸ below path v else fun _ => (new path').default

/-- The message of a field, which each version finds in its own scope. -/
def arriveIn (scope scope' : Scope) (msg : Name) :
    (old (scope.resolveMsg msg)).Value → (new (scope'.resolveMsg msg)).Value :=
  arriveAt prost below (scope.resolveMsg msg) (scope'.resolveMsg msg)

def arriveUnion {ws rs : List (Nat × Name)} (variants : VariantsChange ws rs) :
    OneofValue (unionVariants prost old ws) → OneofValue (unionVariants prost new rs) :=
  arriveChoice prost (fun v : Nat × Name => below (.topLevel v.2)) variants

def DeclChange.arrive {d d' : MessageDecl} : DeclChange d d' →
    (d.message prost old).Value → (d'.message prost new).Value
  | .struct scope scope' name _ _ fields =>
      arriveFields prost (arriveIn prost below scope scope') name fields
  | .enum variants =>
      arriveUnion prost below (variants.map fun v => (v.tag, v.messageType))
  | .added _ _ _ d => fun _ => (d.message prost new).default
  | .dropped _ _ _ _ => fun _ => ()

def arrivePayload (scope scope' : Scope) (v : OneofVariantIr) :
    (dispatchPayload prost old scope v).Value → (dispatchPayload prost new scope' v).Value :=
  arriveFields prost (arriveIn prost below scope scope') v.messageType
    (.refl (payloadFields v.messageType))

def WrapperChange.arrive {d d' : WrapperDecl} : WrapperChange d d' →
    (d.message prost old).Value → (d'.message prost new).Value
  | .dispatch scope scope' _ variants =>
      arriveChoice prost (arrivePayload prost below scope scope') variants
  | .account variants => arriveUnion prost below variants

/-- What the reader makes of a value of the writer. -/
def CrateChange.arrive {old new : Crate} (change : CrateChange old new) : (levels : Nat) →
    (path : RustPath) → (old.message prost levels path).Value →
      (new.message prost levels path).Value
  | 0, _ => id
  | levels + 1, path => (change path).arrive prost (arrive change levels)

end Arrive

end Shipstern.Codegen
