import Shipstern.Anchor.Passes
import Shipstern.Lib.Settles

/-!
# What the passes rewrite

`Replaced` relates a type to one with other types in place of those that the walker finds. The
mutable walker succeeds exactly on such types, so a fact about a pass is proved for one level of
types and carried through by induction on the levels.

A type that is inlined is linked nowhere but in one argument, so its body has no link that is
replaced: replacing links ends on every program, whatever types refer to each other.
-/

namespace Shipstern.Anchor

open Codama Fallible Levels

/-! ## One level of types -/

section Replaced

/-- Items of which the type is replaced. -/
def Retyped {α : Type} (get : α → TypeNode) (set : α → TypeNode → α)
    (P : TypeNode → TypeNode → Prop) : List α → List α → Prop :=
  List.Forall₂ fun item item' => ∃ type, P (get item) type ∧ item' = set item type

abbrev FieldsRetyped : (TypeNode → TypeNode → Prop) → List StructFieldTypeNode →
    List StructFieldTypeNode → Prop :=
  Retyped (·.type) fun field type => { field with type }

abbrev ConstantsRetyped : (TypeNode → TypeNode → Prop) → List ConstantValueNode →
    List ConstantValueNode → Prop :=
  Retyped (·.type) fun constant type => { constant with type }

abbrev ArgumentsRetyped : (TypeNode → TypeNode → Prop) → List InstructionArgumentNode →
    List InstructionArgumentNode → Prop :=
  Retyped (·.type) fun arg type => { arg with type }

variable (P : TypeNode → TypeNode → Prop)

inductive PayloadReplaced : VariantPayload TypeNode → VariantPayload TypeNode → Prop
  | empty : PayloadReplaced .empty .empty
  | struct {fields fields' : List StructFieldTypeNode} (h : FieldsRetyped P fields fields') :
      PayloadReplaced (.struct fields) (.struct fields')
  | tuple {items items' : List TypeNode} (h : List.Forall₂ P items items') :
      PayloadReplaced (.tuple items) (.tuple items')
  | wrapped {types : List TypeNode} : PayloadReplaced (.wrapped types) (.wrapped types)

abbrev VariantsReplaced : List EnumVariantTypeNode → List EnumVariantTypeNode → Prop :=
  List.Forall₂ fun variant variant' =>
    ∃ payload, PayloadReplaced P variant.payload payload ∧ variant' = { variant with payload }

/-- A type that the walker does not look into. -/
def Unwalked : TypeNode → Prop
  | .array _ _ | .fixedSize _ _ | .sizePrefix _ _ | .option _ _ _ | .hiddenPrefix _ _ | .struct _
  | .tuple _ | .enum _ _ => False
  | _ => True

inductive Replaced : TypeNode → TypeNode → Prop
  | array {item item' : TypeNode} {count : CountNode} (h : P item item') :
      Replaced (.array item count) (.array item' count)
  | fixedSize {size : Nat} {type type' : TypeNode} (h : P type type') :
      Replaced (.fixedSize size type) (.fixedSize size type')
  | sizePrefix {type type' : TypeNode} {number : NestedTypeNode NumberTypeNode}
      (h : P type type') : Replaced (.sizePrefix type number) (.sizePrefix type' number)
  | option {fixed : Option Bool} {item item' : TypeNode} {number : NestedTypeNode NumberTypeNode}
      (h : P item item') : Replaced (.option fixed item number) (.option fixed item' number)
  | hiddenPrefix {type type' : TypeNode} {constants constants' : List ConstantValueNode}
      (h : P type type') (hconstants : ConstantsRetyped P constants constants') :
      Replaced (.hiddenPrefix type constants) (.hiddenPrefix type' constants')
  | struct {fields fields' : List StructFieldTypeNode} (h : FieldsRetyped P fields fields') :
      Replaced (.struct fields) (.struct fields')
  | tuple {items items' : List TypeNode} (h : List.Forall₂ P items items') :
      Replaced (.tuple items) (.tuple items')
  | enum {variants variants' : List EnumVariantTypeNode} {size : NestedTypeNode NumberTypeNode}
      (h : VariantsReplaced P variants variants') :
      Replaced (.enum variants size) (.enum variants' size)
  | same {type : TypeNode} (h : Unwalked type) : Replaced type type

end Replaced

section Walker

variable {f : TypeNode → Option TypeNode}

/-- What is rewritten by the function. -/
abbrev Gives (f : TypeNode → Option TypeNode) (type type' : TypeNode) : Prop := f type = some type'

theorem retyped_of_mapM {α : Type} {get : α → TypeNode} {set : α → TypeNode → α}
    {items items' : List α}
    (h : (items.mapM fun item => (f (get item)).map (set item)) = some items') :
    Retyped get set (Gives f) items items' := by
  refine (mapM_eq_some.mp h).imp fun item item' hitem => ?_
  obtain ⟨type, htype, rfl⟩ := Option.map_eq_some_iff.mp hitem
  exact ⟨type, htype, rfl⟩

theorem payloadChildrenMut_replaced {payload payload' : VariantPayload TypeNode}
    (h : payloadChildrenMut f payload = some payload') :
    PayloadReplaced (Gives f) payload payload' := by
  cases payload with
  | struct fields =>
      obtain ⟨fields', hfields, rfl⟩ := Option.map_eq_some_iff.mp h
      exact .struct (retyped_of_mapM hfields)
  | tuple items =>
      obtain ⟨items', hitems, rfl⟩ := Option.map_eq_some_iff.mp h
      exact .tuple (mapM_eq_some.mp hitems)
  | empty =>
      cases h
      exact .empty
  | wrapped types =>
      cases h
      exact .wrapped

theorem forEachChildMut_replaced {ty ty' : TypeNode} (h : forEachChildMut f ty = some ty') :
    Replaced (Gives f) ty ty' := by
  cases ty with
  | array item count =>
      obtain ⟨item', hitem, rfl⟩ := Option.map_eq_some_iff.mp h
      exact .array hitem
  | fixedSize size type =>
      obtain ⟨type', htype, rfl⟩ := Option.map_eq_some_iff.mp h
      exact .fixedSize htype
  | sizePrefix type number =>
      obtain ⟨type', htype, rfl⟩ := Option.map_eq_some_iff.mp h
      exact .sizePrefix htype
  | option fixed item number =>
      obtain ⟨item', hitem, rfl⟩ := Option.map_eq_some_iff.mp h
      exact .option hitem
  | hiddenPrefix type constants =>
      obtain ⟨type', htype, h⟩ := Option.bind_eq_some_iff.mp h
      obtain ⟨constants', hconstants, h⟩ := Option.bind_eq_some_iff.mp h
      cases h
      exact .hiddenPrefix htype (retyped_of_mapM hconstants)
  | struct fields =>
      obtain ⟨fields', hfields, rfl⟩ := Option.map_eq_some_iff.mp h
      exact .struct (retyped_of_mapM hfields)
  | tuple items =>
      obtain ⟨items', hitems, rfl⟩ := Option.map_eq_some_iff.mp h
      exact .tuple (mapM_eq_some.mp hitems)
  | enum variants size =>
      obtain ⟨variants', hvariants, rfl⟩ := Option.map_eq_some_iff.mp h
      refine .enum ((mapM_eq_some.mp hvariants).imp fun variant variant' hvariant => ?_)
      obtain ⟨payload, hpayload, rfl⟩ := Option.map_eq_some_iff.mp hvariant
      exact ⟨payload, payloadChildrenMut_replaced hpayload, rfl⟩
  | boolean | publicKey | number | string | bytes | hiddenSuffix | map | set | link
  | unsupported =>
      cases h
      exact .same trivial

end Walker

section Replaced

variable {P Q : TypeNode → TypeNode → Prop}

section Retyped

variable {α : Type} {get : α → TypeNode} {set : α → TypeNode → α} {items items' : List α}

theorem Retyped.types (hget : ∀ item type, get (set item type) = type)
    (h : Retyped get set P items items') : List.Forall₂ P (items.map get) (items'.map get) := by
  rw [List.forall₂_map_left_iff, List.forall₂_map_right_iff]
  refine h.imp fun item item' hitem => ?_
  obtain ⟨type, htype, rfl⟩ := hitem
  rw [hget]
  exact htype

theorem Retyped.imp (h : Retyped get set P items items')
    (himp : ∀ type ∈ items.map get, ∀ type', P type type' → Q type type') :
    Retyped get set Q items items' := by
  refine forall₂_imp_mem h fun item hitem item' hrow => ?_
  obtain ⟨type, htype, rfl⟩ := hrow
  exact ⟨type, himp _ (List.mem_map_of_mem hitem) type htype, rfl⟩

theorem Retyped.eq (hset : ∀ item, set item (get item) = item)
    (h : Retyped get set P items items')
    (heq : ∀ type ∈ items.map get, ∀ type', P type type' → type' = type) : items' = items := by
  induction h with
  | nil => rfl
  | cons hrow _ ih =>
      obtain ⟨type, htype, rfl⟩ := hrow
      obtain ⟨hfirst, hrest⟩ := List.forall_mem_cons.mp heq
      rw [ih hrest, hfirst type htype, hset]

end Retyped

/-- The types in a payload that the walker finds. -/
def walkedPayload : VariantPayload TypeNode → List TypeNode
  | .struct fields => fields.map (·.type)
  | .tuple items => items
  | .empty | .wrapped _ => []

theorem walked_enum (variants : List EnumVariantTypeNode) (size : NestedTypeNode NumberTypeNode) :
    walked (.enum variants size) = variants.flatMap fun variant => walkedPayload variant.payload :=
  rfl

theorem PayloadReplaced.walked {payload payload' : VariantPayload TypeNode}
    (h : PayloadReplaced P payload payload') :
    List.Forall₂ P (walkedPayload payload) (walkedPayload payload') := by
  cases h with
  | struct h => exact h.types fun _ _ => rfl
  | tuple h => exact h
  | empty | wrapped => exact .nil

theorem Unwalked.walked_eq {ty : TypeNode} (h : Unwalked ty) : walked ty = [] := by
  cases ty <;> first | exact h.elim | rfl

/-- The walker finds as many types as before. -/
theorem Replaced.walked {ty ty' : TypeNode} (h : Replaced P ty ty') :
    List.Forall₂ P (walked ty) (walked ty') := by
  cases h with
  | array h | fixedSize h | sizePrefix h | option h => exact .cons h .nil
  | hiddenPrefix h hconstants => exact .cons h (hconstants.types fun _ _ => rfl)
  | struct h => exact h.types fun _ _ => rfl
  | tuple h => exact h
  | enum h =>
      rw [walked_enum, walked_enum]
      refine List.rel_flatMap h fun variant variant' hvariant => ?_
      obtain ⟨payload, hpayload, rfl⟩ := hvariant
      exact hpayload.walked
  | same h =>
      rw [h.walked_eq]
      exact .nil

theorem Replaced.link {ty : TypeNode} {name : Name} (h : Replaced P ty (.link name)) :
    ty = .link name := by
  cases h
  rfl

theorem PayloadReplaced.imp {payload payload' : VariantPayload TypeNode}
    (h : PayloadReplaced P payload payload')
    (himp : ∀ type ∈ walkedPayload payload, ∀ type', P type type' → Q type type') :
    PayloadReplaced Q payload payload' := by
  cases h with
  | struct h => exact .struct (h.imp himp)
  | tuple h => exact .tuple (forall₂_imp_mem h himp)
  | empty => exact .empty
  | wrapped => exact .wrapped

theorem Replaced.imp {ty ty' : TypeNode} (h : Replaced P ty ty')
    (himp : ∀ type ∈ Anchor.walked ty, ∀ type', P type type' → Q type type') :
    Replaced Q ty ty' := by
  cases h with
  | array h => exact .array (himp _ List.mem_cons_self _ h)
  | fixedSize h => exact .fixedSize (himp _ List.mem_cons_self _ h)
  | sizePrefix h => exact .sizePrefix (himp _ List.mem_cons_self _ h)
  | option h => exact .option (himp _ List.mem_cons_self _ h)
  | hiddenPrefix h hconstants =>
      obtain ⟨htype, hrest⟩ := List.forall_mem_cons.mp himp
      exact .hiddenPrefix (htype _ h) (hconstants.imp hrest)
  | struct h => exact .struct (h.imp himp)
  | tuple h => exact .tuple (forall₂_imp_mem h himp)
  | enum h =>
      refine .enum (forall₂_imp_mem h fun variant hvariant variant' hrow => ?_)
      obtain ⟨payload, hpayload, rfl⟩ := hrow
      refine ⟨payload, hpayload.imp fun type htype => himp type ?_, rfl⟩
      rw [walked_enum]
      exact List.mem_flatMap_of_mem hvariant htype
  | same h => exact .same h

theorem PayloadReplaced.eq {payload payload' : VariantPayload TypeNode}
    (h : PayloadReplaced P payload payload')
    (heq : ∀ type ∈ walkedPayload payload, ∀ type', P type type' → type' = type) :
    payload' = payload := by
  cases h with
  | struct h => rw [h.eq (fun _ => rfl) heq]
  | tuple h => rw [forall₂_eq h heq]
  | empty | wrapped => rfl

/-- Where no type below is replaced by another one, the type stays as it is. -/
theorem Replaced.eq {ty ty' : TypeNode} (h : Replaced P ty ty')
    (heq : ∀ type ∈ Anchor.walked ty, ∀ type', P type type' → type' = type) : ty' = ty := by
  cases h with
  | array h | fixedSize h | sizePrefix h | option h => rw [heq _ List.mem_cons_self _ h]
  | hiddenPrefix h hconstants =>
      obtain ⟨htype, hrest⟩ := List.forall_mem_cons.mp heq
      rw [htype _ h, hconstants.eq (fun _ => rfl) hrest]
  | struct h => rw [h.eq (fun _ => rfl) heq]
  | tuple h => rw [forall₂_eq h heq]
  | enum h =>
      rw [forall₂_eq h]
      rintro variant hvariant _ ⟨payload, hpayload, rfl⟩
      rw [hpayload.eq fun type htype => heq type ?_]
      rw [walked_enum]
      exact List.mem_flatMap_of_mem hvariant htype
  | same => rfl

/-- Of what the converter writes all types below are replaced, and the kind of the type stays. -/
theorem Replaced.writtenKind {ty ty' : TypeNode} (h : Replaced P ty ty') (hkind : WrittenKind ty) :
    WrittenKind ty' := by
  cases h with
  | enum h =>
      intro variant' hvariant' types hwrapped
      obtain ⟨variant, hvariant, payload, hpayload, rfl⟩ :=
        forall₂_mem_right h hvariant'
      have hpayload' : PayloadReplaced P variant.payload (.wrapped types) := hwrapped ▸ hpayload
      generalize hsource : variant.payload = source at hpayload'
      cases hpayload' with
      | wrapped => exact hkind variant hvariant types hsource
  | same => exact hkind
  | array | fixedSize | sizePrefix | option | hiddenPrefix | struct | tuple => trivial

theorem Replaced.written {ty ty' : TypeNode} (h : Replaced P ty ty') (hwritten : Written ty)
    (hbelow : ∀ type ∈ Anchor.walked ty, ∀ type', P type type' → Written type → Written type') :
    Written ty' := by
  obtain ⟨hkind, hchildren⟩ := written_iff.mp hwritten
  have hkind' := h.writtenKind hkind
  refine written_iff.mpr ⟨hkind', fun child' hchild' => ?_⟩
  rw [← hkind'.walked_eq] at hchild'
  obtain ⟨child, hchild, hP⟩ := forall₂_mem_right h.walked hchild'
  refine hbelow child hchild child' hP (hchildren child ?_)
  rw [← hkind.walked_eq]
  exact hchild

end Replaced

/-! ## Links that are replaced -/

theorem mem_collectLinks_visited {name : Name} {ty : TypeNode} :
    name ∈ collectLinks ty ↔ .link name ∈ visited ty := by
  rw [collectLinks, List.mem_filterMap]
  constructor
  · rintro ⟨sub, hsub, hlink⟩
    cases sub with
    | link other =>
        cases hlink
        exact hsub
    | _ => cases hlink
  · exact fun hsub => ⟨.link name, hsub, rfl⟩

theorem mem_collectLinks_iff {name : Name} {ty : TypeNode} :
    name ∈ collectLinks ty ↔ ty = .link name ∨ ∃ type ∈ walked ty, name ∈ collectLinks type := by
  simp only [mem_collectLinks_visited]
  rw [visited_eq, List.mem_cons, List.mem_flatMap, eq_comm]

/-- No link that the walker finds in the type is replaced. -/
def LinksKept (inline : Defs) (ty : TypeNode) : Prop :=
  ∀ name ∈ collectLinks ty, inline.lookup name = none

theorem linksKept_iff {inline : Defs} {ty : TypeNode} :
    LinksKept inline ty ↔ (∀ name, ty = .link name → inline.lookup name = none) ∧
      ∀ type ∈ walked ty, LinksKept inline type := by
  constructor
  · intro h
    exact ⟨fun name hname => h name (mem_collectLinks_iff.mpr (.inl hname)),
      fun type htype name hname => h name (mem_collectLinks_iff.mpr (.inr ⟨type, htype, hname⟩))⟩
  · rintro ⟨hlink, hbelow⟩ name hname
    obtain hname | ⟨type, htype, hname⟩ := mem_collectLinks_iff.mp hname
    · exact hlink name hname
    · exact hbelow type htype name hname

/-- No body that is put in place of a link has a link that is replaced. -/
def BodiesKept (inline : Defs) : Prop :=
  ∀ name body, inline.lookup name = some body → LinksKept inline body

section Inline

variable {inline : Defs}

theorem replaceLink_cases (inline : Defs) (ty : TypeNode) :
    (∃ name body, ty = .link name ∧ inline.lookup name = some body ∧
      replaceLink inline ty = body) ∨
    replaceLink inline ty = ty ∧ ∀ name, ty = .link name → inline.lookup name = none := by
  cases ty with
  | link name =>
      cases hfound : inline.lookup name with
      | some body => exact .inl ⟨name, body, rfl, hfound, by rw [replaceLink, hfound]; rfl⟩
      | none =>
          refine .inr ⟨by rw [replaceLink, hfound]; rfl, fun name' hname' => ?_⟩
          cases hname'
          exact hfound
  | _ => exact .inr ⟨rfl, by simp⟩

theorem LinksKept.replaceLink_eq {ty : TypeNode} (h : LinksKept inline ty) :
    replaceLink inline ty = ty := by
  obtain ⟨name, body, rfl, hfound, -⟩ | ⟨heq, -⟩ := replaceLink_cases inline ty
  · rw [(linksKept_iff.mp h).1 name rfl] at hfound
    cases hfound
  · exact heq

/-- After one replacement the type itself is no link that is replaced. -/
theorem BodiesKept.replaceLink_link (h : BodiesKept inline) {ty : TypeNode} {name : Name}
    (hlink : replaceLink inline ty = .link name) : inline.lookup name = none := by
  obtain ⟨other, body, rfl, hfound, heq⟩ | ⟨heq, hnone⟩ := replaceLink_cases inline ty
  · exact (linksKept_iff.mp (h other body hfound)).1 name (heq.symm.trans hlink)
  · exact hnone name (heq.symm.trans hlink)

/-- A type without a link that is replaced stays as it is. -/
theorem LinksKept.inlineLinks_eq {room : Nat} {ty ty' : TypeNode} (h : LinksKept inline ty)
    (hrun : inlineLinks inline room ty = some ty') : ty' = ty := by
  induction room generalizing ty ty' with
  | zero => cases hrun
  | succ room ih =>
      rw [inlineLinks, h.replaceLink_eq] at hrun
      refine (forEachChildMut_replaced hrun).eq fun type htype type' htype' => ?_
      exact ih ((linksKept_iff.mp h).2 type htype) htype'

/-- The body of a link is not changed any further. -/
theorem BodiesKept.inlineLinks_link (h : BodiesKept inline) {room : Nat} {name : Name}
    {body ty' : TypeNode} (hfound : inline.lookup name = some body)
    (hrun : inlineLinks inline room (.link name) = some ty') : ty' = body := by
  cases room with
  | zero => cases hrun
  | succ room =>
      rw [inlineLinks, replaceLink, hfound] at hrun
      refine (forEachChildMut_replaced hrun).eq fun type htype type' htype' => ?_
      exact ((linksKept_iff.mp (h name body hfound)).2 type htype).inlineLinks_eq htype'

theorem BodiesKept.inlineLinks_kept (h : BodiesKept inline) {room : Nat} {ty ty' : TypeNode}
    (hrun : inlineLinks inline room ty = some ty') : LinksKept inline ty' := by
  induction room generalizing ty ty' with
  | zero => cases hrun
  | succ room ih =>
      have hreplaced := forEachChildMut_replaced hrun
      refine linksKept_iff.mpr ⟨fun name hname => ?_, fun type' htype' => ?_⟩
      · subst hname
        exact h.replaceLink_link hreplaced.link
      · obtain ⟨type, htype, hgives⟩ := forall₂_mem_right hreplaced.walked htype'
        exact ih hgives

theorem inlineLinks_written (hbodies : ∀ name body, inline.lookup name = some body → Written body)
    {room : Nat} {ty ty' : TypeNode} (h : Written ty)
    (hrun : inlineLinks inline room ty = some ty') : Written ty' := by
  induction room generalizing ty ty' with
  | zero => cases hrun
  | succ room ih =>
      have hwritten : Written (replaceLink inline ty) := by
        obtain ⟨name, body, -, hfound, heq⟩ | ⟨heq, -⟩ := replaceLink_cases inline ty
        · exact heq ▸ hbodies name body hfound
        · exact heq.symm ▸ h
      refine (forEachChildMut_replaced hrun).written hwritten fun type _ type' hgives htype => ?_
      exact ih htype hgives

end Inline

/-! ## What is inlined -/

/-- The bodies in place of links. -/
def inlineDefs (program : ProgramNode) : Defs :=
  defsOf (program.definedTypes.filter (isInlined program))

theorem inlineDefs_lookup {program : ProgramNode} {name : Name} {body : TypeNode}
    (h : (inlineDefs program).lookup name = some body) :
    ∃ ty ∈ program.definedTypes, isInlined program ty = true ∧ ty.name = name ∧ ty.type = body := by
  obtain ⟨ty, hty, heq⟩ := List.mem_map.mp (List.mem_reverse.mp (mem_of_lookup h))
  cases heq
  obtain ⟨hmem, hinlined⟩ := List.mem_filter.mp hty
  exact ⟨ty, hmem, hinlined, rfl, rfl⟩

/-- All links to an inlined type but one are accounted for by the argument. -/
theorem isInlined_uncounted {program : ProgramNode} {ty : DefinedTypeNode}
    (h : isInlined program ty = true) :
    ty.name ∉ (countedTypes program).flatMap collectLinks := by
  simp only [isInlined, uses, Bool.and_eq_true] at h
  obtain ⟨⟨htotal, hdirect⟩, -⟩ := h
  have htotal := of_decide_eq_true htotal
  have hdirect := of_decide_eq_true hdirect
  rw [← List.count_eq_zero]
  omega

theorem linksKept_of_counted {program : ProgramNode} {ty : TypeNode}
    (h : ty ∈ countedTypes program) : LinksKept (inlineDefs program) ty := by
  intro name hname
  cases hfound : (inlineDefs program).lookup name with
  | none => rfl
  | some body =>
      obtain ⟨definition, -, hinlined, rfl, -⟩ := inlineDefs_lookup hfound
      exact absurd (List.mem_flatMap_of_mem h hname) (isInlined_uncounted hinlined)

theorem mem_countedTypes_of_defined {program : ProgramNode} {ty : DefinedTypeNode}
    (h : ty ∈ program.definedTypes) : ty.type ∈ countedTypes program := by
  simp only [countedTypes, List.mem_append]
  exact .inl (.inl (.inl (.inr (List.mem_map_of_mem h))))

theorem inlineDefs_bodiesKept (program : ProgramNode) : BodiesKept (inlineDefs program) := by
  intro name body hfound
  obtain ⟨ty, hty, -, -, rfl⟩ := inlineDefs_lookup hfound
  exact linksKept_of_counted (mem_countedTypes_of_defined hty)

/-! ## The passes end -/

section Ending

variable {f : Nat → TypeNode → Option TypeNode}

theorem payloadChildrenMut_settles {payload : VariantPayload TypeNode}
    (h : ∀ type ∈ walkedPayload payload, Settles fun room => f room type) :
    Settles fun room => payloadChildrenMut (f room) payload := by
  cases payload with
  | struct fields =>
      refine Settles.map (.mapM fun field hfield => ?_) _
      exact (h _ (List.mem_map_of_mem hfield)).map _
  | tuple items => exact Settles.map (.mapM h) _
  | empty | wrapped => exact .const _

theorem forEachChildMut_settles {ty : TypeNode}
    (h : ∀ type ∈ walked ty, Settles fun room => f room type) :
    Settles fun room => forEachChildMut (f room) ty := by
  cases ty with
  | array | fixedSize | sizePrefix | option => exact (h _ List.mem_cons_self).map _
  | hiddenPrefix type constants =>
      obtain ⟨htype, hrest⟩ := List.forall_mem_cons.mp h
      refine htype.bind fun type' => Settles.bind (.mapM fun constant hconstant => ?_) fun _ =>
        .const _
      exact (hrest _ (List.mem_map_of_mem hconstant)).map _
  | struct fields =>
      refine Settles.map (.mapM fun field hfield => ?_) _
      exact (h _ (List.mem_map_of_mem hfield)).map _
  | tuple items => exact Settles.map (.mapM h) _
  | enum variants size =>
      refine Settles.map (.mapM fun variant hvariant => Settles.map ?_ _) _
      refine payloadChildrenMut_settles fun type htype => h type ?_
      rw [walked_enum]
      exact List.mem_flatMap_of_mem hvariant htype
  | boolean | publicKey | number | string | bytes | hiddenSuffix | map | set | link
  | unsupported => exact .const _

theorem walked_subset_children {ty type : TypeNode} (h : type ∈ walked ty) :
    type ∈ ty.children := by
  cases ty with
  | enum variants size =>
      rw [walked_enum] at h
      obtain ⟨variant, hvariant, htype⟩ := List.mem_flatMap.mp h
      refine List.mem_flatMap_of_mem hvariant ?_
      cases hpayload : variant.payload with
      | struct fields | tuple items =>
          rw [hpayload] at htype
          exact htype
      | empty | wrapped types =>
          rw [hpayload] at htype
          cases htype
  | array | fixedSize | sizePrefix | option | hiddenPrefix | struct | tuple => exact h
  | boolean | publicKey | number | string | bytes | hiddenSuffix | map | set | link
  | unsupported => cases h

theorem LinksKept.settles {inline : Defs} {ty : TypeNode} (h : LinksKept inline ty) :
    Settles fun room => inlineLinks inline room ty := by
  induction ty using TypeNode.induction with
  | step ty ih =>
      refine .succ ?_
      simp only [inlineLinks, h.replaceLink_eq]
      refine forEachChildMut_settles fun type htype => ?_
      exact ih type (walked_subset_children htype) ((linksKept_iff.mp h).2 type htype)

/-- Replacing links ends, although the bodies are not parts of the type. -/
theorem BodiesKept.settles {inline : Defs} (h : BodiesKept inline) (ty : TypeNode) :
    Settles fun room => inlineLinks inline room ty := by
  induction ty using TypeNode.induction with
  | step ty ih =>
      refine .succ ?_
      simp only [inlineLinks]
      obtain ⟨name, body, -, hfound, heq⟩ | ⟨heq, -⟩ := replaceLink_cases inline ty
      · rw [heq]
        exact forEachChildMut_settles fun type htype =>
          ((linksKept_iff.mp (h name body hfound)).2 type htype).settles
      · rw [heq]
        exact forEachChildMut_settles fun type htype => ih type (walked_subset_children htype)

theorem u8ArraysToBytes_settles (ty : TypeNode) :
    Settles fun room => u8ArraysToBytes room ty := by
  induction ty using TypeNode.induction with
  | step ty ih =>
      refine .succ ?_
      simp only [u8ArraysToBytes]
      exact (forEachChildMut_settles fun type htype =>
        ih type (walked_subset_children htype)).map _

variable (hf : ∀ type, Settles fun room => f room type)
include hf

theorem seedTypesMut_settles (account : InstructionAccountNode) :
    Settles fun room => seedTypesMut (f room) account := by
  have hseed : ∀ seed, Settles fun room => seedTypeMut (f room) seed := by
    intro seed
    cases seed <;> exact (hf _).map _
  simp only [seedTypesMut]
  split
  · exact Settles.bind (.mapM fun seed _ => hseed seed) fun _ => .const _
  · exact .const _

theorem instructionTypesMut_settles (ix : InstructionNode) :
    Settles fun room => instructionTypesMut (f room) ix := by
  refine Settles.bind (.mapM fun arg _ => (hf arg.type).map _) fun arguments => ?_
  exact Settles.bind (.mapM fun account _ => seedTypesMut_settles hf account) fun _ => .const _

theorem accountTypesMut_settles (account : AccountNode) :
    Settles fun room => accountTypesMut (f room) account := by
  simp only [accountTypesMut]
  split
  · exact Settles.map (.mapM fun field _ => (hf field.type).map _) _
  · exact .const _

end Ending

theorem unwrap_settles (program : ProgramNode) :
    Settles fun room => unwrapInstructionArgsDefinedTypes room program := by
  simp only [unwrapInstructionArgsDefinedTypes, List.partition_eq_filter_filter]
  split
  · exact .const _
  · refine Settles.bind (.mapM fun ix _ => ?_) fun _ => .const _
    exact instructionTypesMut_settles (inlineDefs_bodiesKept program).settles ix

theorem transformU8ArraysToBytes_settles (program : ProgramNode) :
    Settles fun room => transformU8ArraysToBytes room program := by
  have hbytes := u8ArraysToBytes_settles
  refine Settles.bind (.mapM fun account _ => accountTypesMut_settles hbytes account) fun _ => ?_
  refine Settles.bind (.mapM fun ix _ => instructionTypesMut_settles hbytes ix) fun _ => ?_
  refine Settles.bind (.mapM fun ty _ => (hbytes ty.type).map _) fun _ => ?_
  refine Settles.bind (.mapM fun event _ => (hbytes event.data).map _) fun _ => ?_
  exact Settles.bind (.mapM fun constant _ => (hbytes constant.type).map _) fun _ => .const _

/-- The passes end on every program, whether its types refer to each other, are declared twice or
not at all. -/
theorem run_settles (program : ProgramNode) : Settles fun room => run room program := by
  refine Settles.bind (unwrap_settles _) fun unwrapped => ?_
  split
  · exact .const _
  · exact (transformU8ArraysToBytes_settles _).map _

end Shipstern.Anchor
