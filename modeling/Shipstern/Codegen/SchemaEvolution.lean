import Shipstern.Codegen.SchemaCrate

/-!
# The next version of a program

A program goes on with new fields at the ends of its structs, new variants at the ends of its
enums, and new instructions, events, accounts and types. Numbers are positions, so what both
versions know keeps its number. The code generated from one version then reads what the code
generated from the other has written.
-/

namespace Shipstern.Codegen

open Codama Prost

/-! ## What may change -/

instance (scope scope' : Scope) (f : FieldIr) : Decidable (SamePath scope scope' f) :=
  match hf : f.fieldType with
  | .scalar _ => .isTrue fun msg h => by
      rw [hf] at h
      cases h
  | .message name =>
      decidable_of_iff (scope.resolveMsg name = scope'.resolveMsg name) (by simp [SamePath, hf])

/-- Fields come and go at the end. -/
def FieldsContinue (ws rs : List FieldIr) : Prop := ws <+: rs ∨ rs <+: ws

instance (ws rs : List FieldIr) : Decidable (FieldsContinue ws rs) :=
  inferInstanceAs (Decidable (_ ∨ _))

/-- What a type of the reader may be, for the type of the writer under the same path. A path
without a type is a struct without fields. -/
def MessageDecl.Continues : MessageDecl → MessageDecl → Prop
  | .struct _ ⟨_, [], _⟩, _ => True
  | _, .struct _ ⟨_, [], _⟩ => True
  | .struct scope t, .struct scope' t' =>
      t.name = t'.name ∧ FieldsContinue t.fields t'.fields ∧
        ∀ f ∈ t.fields, f ∈ t'.fields → SamePath scope scope' f
  | .enum first rest, .enum first' rest' => first :: rest <+: first' :: rest'
  | _, _ => False

instance : (d d' : MessageDecl) → Decidable (d.Continues d')
  | .struct _ ⟨_, [], _⟩, .struct _ _ | .struct _ ⟨_, [], _⟩, .enum _ _ => .isTrue trivial
  | .struct _ ⟨_, _ :: _, _⟩, .struct _ ⟨_, [], _⟩ | .enum _ _, .struct _ ⟨_, [], _⟩ =>
      .isTrue trivial
  | .struct _ ⟨_, _ :: _, _⟩, .struct _ ⟨_, _ :: _, _⟩ => inferInstanceAs (Decidable (_ ∧ _ ∧ _))
  | .enum first rest, .enum first' rest' =>
      inferInstanceAs (Decidable (first :: rest <+: first' :: rest'))
  | .struct _ ⟨_, _ :: _, _⟩, .enum _ _ | .enum _ _, .struct _ ⟨_, _ :: _, _⟩ => .isFalse id

def WrapperDecl.Continues : WrapperDecl → WrapperDecl → Prop
  | .dispatch scope name ws, .dispatch scope' name' rs =>
      name = name' ∧ ws <+: rs ∧
        ∀ v ∈ ws, ∀ f ∈ payloadFields v.messageType, SamePath scope scope' f
  | .account ws, .account rs => ws <+: rs
  | _, _ => False

instance : (d d' : WrapperDecl) → Decidable (d.Continues d')
  | .dispatch _ _ _, .dispatch _ _ _ => inferInstanceAs (Decidable (_ ∧ _ ∧ _))
  | .account ws, .account rs => inferInstanceAs (Decidable (ws <+: rs))
  | .dispatch _ _ _, .account _ | .account _, .dispatch _ _ _ => .isFalse id

/-! ## The change -/

def FieldsChange.addAll : (fields : List FieldIr) → FieldsChange [] fields
  | [] => .nil
  | f :: fields => .added f (addAll fields)

theorem FieldsContinue.head {f g : FieldIr} {ws rs : List FieldIr}
    (h : FieldsContinue (f :: ws) (g :: rs)) : f = g :=
  h.elim (fun h => (List.cons_prefix_cons.mp h).1) fun h => (List.cons_prefix_cons.mp h).1.symm

theorem FieldsContinue.tail {f g : FieldIr} {ws rs : List FieldIr}
    (h : FieldsContinue (f :: ws) (g :: rs)) : FieldsContinue ws rs :=
  h.imp (fun h => (List.cons_prefix_cons.mp h).2) fun h => (List.cons_prefix_cons.mp h).2

def FieldsChange.between : (ws rs : List FieldIr) → FieldsContinue ws rs → FieldsChange ws rs
  | [], rs, _ => .addAll rs
  | f :: ws, [], _ => .dropAll (f :: ws)
  | f :: ws, g :: rs, h =>
      match g, h.head with
      | _, rfl => .kept f (between ws rs h.tail)

def VariantsChange.addAll {α : Type} : (variants : List α) → VariantsChange [] variants
  | [] => .nil
  | a :: variants => .added a (addAll variants)

def VariantsChange.between {α : Type} : (ws rs : List α) → ws <+: rs → VariantsChange ws rs
  | [], rs, _ => .addAll rs
  | a :: ws, b :: rs, h =>
      match b, (List.cons_prefix_cons.mp h).1 with
      | _, rfl => .kept a (between ws rs (List.cons_prefix_cons.mp h).2)

def MessageDecl.Continues.change : {d d' : MessageDecl} → d.Continues d' → DeclChange d d'
  | .struct scope ⟨name, [], kind⟩, d', _ => .added scope name kind d'
  | .struct _ ⟨_, _ :: _, _⟩, .struct scope ⟨name, [], kind⟩, _
  | .enum _ _, .struct scope ⟨name, [], kind⟩, _ => .dropped scope name kind _
  | .struct scope ⟨_, w :: ws, kind⟩, .struct scope' ⟨name', r :: rs, kind'⟩, h =>
      match name', h.1 with
      | _, rfl => .struct scope scope' _ kind kind' (.between (w :: ws) (r :: rs) h.2.1)
  | .enum first rest, .enum first' rest', h => .enum (.between (first :: rest) (first' :: rest') h)

theorem numbered_begins {ws rs : List Name} (h : ws <+: rs) : numbered ws <+: numbered rs := by
  obtain ⟨added, rfl⟩ := h
  exact ⟨_, (List.mapIdx_append).symm⟩

def WrapperDecl.Continues.change : {d d' : WrapperDecl} → d.Continues d' → WrapperChange d d'
  | .dispatch scope name ws, .dispatch scope' name' rs, h =>
      match name', h.1 with
      | _, rfl => .dispatch scope scope' name (.between ws rs h.2.1)
  | .account _, .account _, h => .account (.between _ _ (numbered_begins h))

/-! ## Tags and paths -/

theorem FieldsChange.tags_addAll (fields : List FieldIr) :
    (FieldsChange.addAll fields).tags = fields.map (·.tag) := by
  induction fields with
  | nil => rfl
  | cons f fields ih => exact congrArg (f.tag :: ·) ih

/-- The longer version has all of the tags. -/
theorem FieldsChange.tags_between (ws rs : List FieldIr) (h : FieldsContinue ws rs) :
    (FieldsChange.between ws rs h).tags = ws.map (·.tag) ∨
      (FieldsChange.between ws rs h).tags = rs.map (·.tag) := by
  induction ws generalizing rs with
  | nil => exact .inr (tags_addAll rs)
  | cons f ws ih =>
      cases rs with
      | nil => exact .inl (tags_dropAll (f :: ws))
      | cons g rs =>
          obtain rfl := h.head
          exact (ih rs h.tail).imp (congrArg (f.tag :: ·)) (congrArg (f.tag :: ·))

theorem FieldsChange.between_wellTagged {ws rs : List FieldIr} (h : FieldsContinue ws rs)
    (hw : WellTagged (ws.map (·.tag))) (hr : WellTagged (rs.map (·.tag))) :
    WellTagged (FieldsChange.between ws rs h).tags := by
  rcases FieldsChange.tags_between ws rs h with htags | htags
  · rwa [htags]
  · rwa [htags]

section

variable {d d' : MessageDecl} (h : d.Continues d')

theorem MessageDecl.Continues.keepsTags (hw : WellTagged d.tags) (hr : WellTagged d'.tags) :
    h.change.KeepsTags := by
  match d, d', h with
  | .struct _ ⟨_, [], _⟩, .struct _ _, _ | .struct _ ⟨_, [], _⟩, .enum _ _, _ => exact hr
  | .struct _ ⟨_, _ :: _, _⟩, .struct _ ⟨_, [], _⟩, _ | .enum _ _, .struct _ ⟨_, [], _⟩, _ =>
      exact hw
  | .struct _ ⟨_, w :: ws, _⟩, .struct _ ⟨_, r :: rs, _⟩, ⟨hname, hfields, hpaths⟩ =>
      cases hname
      exact FieldsChange.between_wellTagged hfields hw hr
  | .enum _ _, .enum _ _, _ => exact hr

theorem MessageDecl.Continues.keepsPaths : h.change.KeepsPaths := by
  match d, d', h with
  | .struct _ ⟨_, [], _⟩, .struct _ _, _ | .struct _ ⟨_, [], _⟩, .enum _ _, _ => trivial
  | .struct _ ⟨_, _ :: _, _⟩, .struct _ ⟨_, [], _⟩, _ | .enum _ _, .struct _ ⟨_, [], _⟩, _ =>
      trivial
  | .struct _ ⟨_, w :: ws, _⟩, .struct _ ⟨_, r :: rs, _⟩, ⟨hname, hfields, hpaths⟩ =>
      cases hname
      exact hpaths
  | .enum _ _, .enum _ _, _ => trivial

end

section

variable {d d' : WrapperDecl} (h : d.Continues d')

theorem WrapperDecl.Continues.keepsTags (hr : WellTagged d'.tags) : h.change.KeepsTags := by
  match d, d', h with
  | .dispatch _ _ _, .dispatch _ _ _, ⟨hname, hvariants, hpaths⟩ =>
      cases hname
      exact hr
  | .account _, .account _, _ => exact hr

theorem WrapperDecl.Continues.keepsPaths : h.change.KeepsPaths := by
  match d, d', h with
  | .dispatch _ _ _, .dispatch _ _ _, ⟨hname, hvariants, hpaths⟩ =>
      cases hname
      exact hpaths
  | .account _, .account _, _ => trivial

end

/-! ## The schema of the next version -/

/-- The schema of the reader, for the schema of the writer. -/
def SchemaIr.Continues (old new : SchemaIr) : Prop :=
  ∀ path, (old.crate path).Continues (new.crate path)

theorem SchemaIr.Continues.compatible {old new : SchemaIr} (h : old.Continues new)
    (hold : old.crate.TagsDiffer) (hnew : new.crate.TagsDiffer) :
    CrateChange.Compatible fun path => (h path).change :=
  ⟨fun path => (h path).keepsTags (hold path) (hnew path), fun path => (h path).keepsPaths⟩

/-! ### Only finitely many paths have a type -/

/-- The paths that may have a type. -/
def SchemaIr.paths (ir : SchemaIr) : List RustPath :=
  ir.oneofs.map (.topLevel ·.parentMessage) ++ ir.types.map (.topLevel ·.name) ++
    ir.types.map (.instruction ·.name) ++ ir.types.map (.event ·.name)

theorem SchemaIr.insideOf_of_not_mem {ir : SchemaIr} {path : Name → RustPath} {name : Name}
    (h : path name ∉ ir.types.map (path ·.name)) (kind : TypeKindIr) :
    ir.insideOf kind name = none := by
  refine List.find?_eq_none.mpr fun t ht hname => h ?_
  exact List.mem_map.mpr ⟨t, (mem_payloadTypes.mp ht).1, congrArg path (of_decide_eq_true hname)⟩

theorem SchemaIr.crate_of_not_mem {ir : SchemaIr} {path : RustPath} (h : path ∉ ir.paths) :
    ir.crate path = noMessage := by
  simp only [SchemaIr.paths, List.mem_append, not_or] at h
  obtain ⟨⟨⟨honeofs, htop⟩, hinstruction⟩, hevent⟩ := h
  cases path with
  | topLevel name =>
      have henum : ir.enumOf name = none := by
        refine List.find?_eq_none.mpr fun oneof hmem hfound => honeofs ?_
        exact List.mem_map.mpr ⟨oneof, hmem, congrArg _ (of_decide_eq_true hfound).2.2⟩
      have houtside : ir.outsideOf name = none := by
        refine List.find?_eq_none.mpr fun t ht hfound => htop ?_
        exact List.mem_map.mpr ⟨t, ht, congrArg _ (of_decide_eq_true hfound).2⟩
      rw [SchemaIr.crate, henum, houtside]
      rfl
  | instruction name =>
      rw [SchemaIr.crate, SchemaIr.insideOf_of_not_mem hinstruction]
      rfl
  | event name =>
      rw [SchemaIr.crate, SchemaIr.insideOf_of_not_mem hevent]
      rfl
  | dispatch parent => rfl

theorem SchemaIr.continues_iff {old new : SchemaIr} : old.Continues new ↔
    ∀ path ∈ old.paths ++ new.paths, (old.crate path).Continues (new.crate path) := by
  refine ⟨fun h path _ => h path, fun h path => ?_⟩
  by_cases hmem : path ∈ old.paths ++ new.paths
  · exact h path hmem
  · rw [List.mem_append, not_or] at hmem
    rw [SchemaIr.crate_of_not_mem hmem.1]
    trivial

instance (old new : SchemaIr) : Decidable (old.Continues new) :=
  decidable_of_iff _ SchemaIr.continues_iff.symm

/-! ## What the reader makes of the messages of the writer -/

section

variable {prost : Prost} (laws : prost.Lawful) {programEvents programEvents' : Bool}
  {name name' : Name} {program program' : ProgramNode} {events events' : List EventNode}
  {e e' : Expansion}

include laws in
/-- The code that is generated from two versions of a program: what one writes, the other one reads,
down to a level above the recursion limit. -/
theorem expand_merge_arrives (h : expand programEvents name program events = .ok e)
    (h' : expand programEvents' name' program' events' = .ok e') (hfit : e.schemaIr.TagsFit)
    (hfit' : e'.schemaIr.TagsFit) (hcontinues : e.schemaIr.Continues e'.schemaIr) (levels : Nat) :
    let old := e.schemaIr.crate.message prost levels
    let new := e'.schemaIr.crate.message prost levels
    let arrive := CrateChange.arrive prost (fun path => (hcontinues path).change) levels
    (∀ path, (old path).ArrivesAt (new path).toMessageImpl
      (fun start _ => start = (new path).default) (arrive path)) ∧
    ∀ wrapper ∈ e.schemaIr.wrappers (toPascalCase name),
      ∀ wrapper' ∈ e'.schemaIr.wrappers (toPascalCase name'),
        ∀ hwrapper : wrapper.2.Continues wrapper'.2,
          (wrapper.2.message prost old).ArrivesAt (wrapper'.2.message prost new)
            (wrapper'.2.FreshFor prost new) (hwrapper.change.arrive prost arrive) := by
  have hnumbers := expand_numbers h
  have hnumbers' := expand_numbers h'
  have hcompatible := hcontinues.compatible (crate_tagsDiffer hnumbers.1 hnumbers.2 hfit)
    (crate_tagsDiffer hnumbers'.1 hnumbers'.2 hfit')
  obtain ⟨hmessages, hwrappers⟩ := CrateChange.merge_arrives laws hcompatible levels
  refine ⟨hmessages, fun wrapper _ wrapper' hmem hwrapper => ?_⟩
  exact hwrappers hwrapper.change
    (hwrapper.keepsTags (wrappers_wellTagged hnumbers'.2 hfit' hmem)) hwrapper.keepsPaths

end

/-- The swap with a fee in the pool, a third side, and an instruction more. -/
def swapProgramNext : ProgramNode :=
  { swapProgram with
    accounts :=
      [⟨"pool".toList, .value
        [⟨"owner".toList, none, .publicKey, none⟩, ⟨"side".toList, none, .link "side".toList, none⟩,
          ⟨"fee".toList, none, .number ⟨.u16, .le⟩, none⟩], []⟩]
    instructions :=
      swapProgram.instructions ++ [⟨"close".toList, [⟨"payer".toList, none, none⟩], [], []⟩]
    definedTypes :=
      [⟨"side".toList, .enum
        [⟨"bid".toList, none, .empty⟩, ⟨"ask".toList, none, .empty⟩, ⟨"both".toList, none, .empty⟩]
        (.value ⟨.u8, .le⟩)⟩] }

/-- Each wrapper goes on under its path. -/
def SchemaIr.WrappersContinue (old new : SchemaIr) (programName : Name) : Prop :=
  ∀ wrapper ∈ old.wrappers programName, ∃ wrapper' ∈ new.wrappers programName,
    wrapper'.1 = wrapper.1 ∧ wrapper.2.Continues wrapper'.2

instance (old new : SchemaIr) (programName : Name) :
    Decidable (old.WrappersContinue new programName) :=
  inferInstanceAs (Decidable (∀ _ ∈ _, ∃ _ ∈ _, _))

theorem swapProgramNext_arrives :
    ∃ e e', expand true "demo".toList swapProgram swapProgram.events = .ok e ∧
      expand true "demo".toList swapProgramNext swapProgram.events = .ok e' ∧
      ∃ hcontinues : e.schemaIr.Continues e'.schemaIr,
        let old := e.schemaIr.crate.message prostWire 3
        let new := e'.schemaIr.crate.message prostWire 3
        let arrive := CrateChange.arrive prostWire (fun path => (hcontinues path).change) 3
        (∀ path, (old path).ArrivesAt (new path).toMessageImpl
          (fun start _ => start = (new path).default) (arrive path)) ∧
        ∀ wrapper ∈ e.schemaIr.wrappers "Demo".toList,
          ∃ wrapper' ∈ e'.schemaIr.wrappers "Demo".toList,
          wrapper'.1 = wrapper.1 ∧ ∃ hwrapper : wrapper.2.Continues wrapper'.2,
            (wrapper.2.message prostWire old).ArrivesAt (wrapper'.2.message prostWire new)
              (wrapper'.2.FreshFor prostWire new) (hwrapper.change.arrive prostWire arrive) := by
  have hrun : ((expand true "demo".toList swapProgram swapProgram.events).toOption.any fun e =>
      (expand true "demo".toList swapProgramNext swapProgram.events).toOption.any fun e' =>
        decide (e.schemaIr.TagsFit ∧ e'.schemaIr.TagsFit ∧ e.schemaIr.Continues e'.schemaIr ∧
          e.schemaIr.WrappersContinue e'.schemaIr "Demo".toList)) = true := by decide +kernel
  cases h : expand true "demo".toList swapProgram swapProgram.events with
  | error panic =>
      rw [h] at hrun
      contradiction
  | ok e =>
      cases h' : expand true "demo".toList swapProgramNext swapProgram.events with
      | error panic =>
          rw [h, h'] at hrun
          contradiction
      | ok e' =>
          rw [h, h'] at hrun
          obtain ⟨hfit, hfit', hcontinues, hwrappers⟩ := of_decide_eq_true hrun
          have hname : toPascalCase "demo".toList = "Demo".toList := by decide
          obtain ⟨hmessages, harrive⟩ :=
            expand_merge_arrives ProstWire.prostWire_lawful h h' hfit hfit' hcontinues 3
          refine ⟨e, e', rfl, rfl, hcontinues, hmessages, fun wrapper hwrapper => ?_⟩
          obtain ⟨wrapper', hwrapper', hpath, hnext⟩ := hwrappers wrapper hwrapper
          rw [hname] at harrive
          have hnext' := harrive wrapper hwrapper wrapper' hwrapper' hnext
          exact ⟨wrapper', hwrapper', hpath, hnext, hnext'⟩

end Shipstern.Codegen
