import Shipstern.Anchor.AliasChains
import Shipstern.Codama.Encoding
import Shipstern.Lib.Measured

/-!
# The size limit and the nesting limit

The code keeps of every walk for a size what a walk of the library finds, capped. A walk that is
not cut off at the nesting limit finds the exact size. One that is leaves an unknown size in the
cache, and later walks stop there: a type above the limit is accepted, a fixed option is
refused, and which of them depends on the order of the defined types. It is said exactly when
the order makes no difference and all sizes stay within the limit.
-/

namespace Shipstern.Anchor

open Codama Chains Fallible Measured

/-! ## What a size is made of -/

/-- A type of a variable size has no form, and neither has a link to nothing. -/
def sizeForm (defs : Defs) : TypeNode → Option (Form TypeNode)
  | .boolean _ => some ⟨1, 1, []⟩
  | .publicKey => some ⟨32, 1, []⟩
  | .number number => number.format.width.map (⟨·, 1, []⟩)
  | .fixedSize size _ => some ⟨size, 1, []⟩
  | .hiddenPrefix type constants | .hiddenSuffix type constants =>
      some ⟨0, 1, constants.map (·.type) ++ [type]⟩
  | .struct fields => some ⟨0, 1, fields.map (·.type)⟩
  | .tuple items => some ⟨0, 1, items⟩
  | .array item (.fixed count) => some ⟨0, count, [item]⟩
  | .option (some true) item number =>
      number.getNestedTypeNode.format.width.map (⟨·, 1, [item]⟩)
  | .link name => (defs.lookup name).map (⟨0, 1, [·]⟩)
  | _ => none

/-- The exact wire size, with links resolved. -/
abbrev HasFixedSize (defs : Defs) : TypeNode → Nat → Prop := HasSize (sizeForm defs)

def linkName : TypeNode → Option Name
  | .link name => some name
  | _ => none

theorem linkName_injective (a b : TypeNode) (name : Name) (ha : linkName a = some name)
    (hb : linkName b = some name) : a = b := by
  cases a with
  | link a =>
      cases b with
      | link b =>
          cases ha
          cases hb
          rfl
      | _ => cases hb
  | _ => cases ha

/-- The walk for the size of a type, which remembers what it finds of every link. -/
abbrev sizeWalk (defs : Defs) :
    Nat → List Name → TypeNode → Memory Name → Finding × Memory Name :=
  walk (sizeForm defs) linkName

/-- What is found of the types, one after the other. -/
abbrev sizeSurvey (defs : Defs) : List TypeNode → Memory Name → List (TypeNode × Finding) :=
  survey (sizeForm defs) linkName (nestingLimit + 1)

abbrev sizeMemory (defs : Defs) : List TypeNode → Memory Name → Memory Name :=
  memory (sizeForm defs) linkName (nestingLimit + 1)

/-- What is found of an item whose types are written one after the other. -/
def sizeSum (defs : Defs) (types : List TypeNode) : Finding :=
  (sumWalk (sizeWalk defs (nestingLimit + 1) []) types []).1

/-! ## Capped arithmetic -/

theorem numberWireSize_eq_width (format : NumberFormat) :
    numberWireSize format = format.width := by
  cases format <;> rfl

theorem cappedAdd_cappedSize (left right : Nat) :
    cappedAdd (cappedSize left) (cappedSize right) = cappedSize (left + right) := by
  rw [cappedAdd, cappedSize, cappedSize, cappedSize]
  by_cases hle : left + right ≤ fixedTypeSizeLimit
  · rw [Nat.min_eq_left (by omega), Nat.min_eq_left (by omega), if_pos hle]
    omega
  · rw [if_neg (by omega)]
    omega

theorem cappedMul_cappedSize (size count : Nat) :
    cappedMul (cappedSize size) count = cappedSize (count * size) := by
  rw [cappedMul, cappedSize, cappedSize, Nat.mul_comm count]
  obtain hle | hlt := Nat.lt_or_ge fixedTypeSizeLimit size
  · rw [Nat.min_eq_right (by omega)]
    obtain rfl | hcount := Nat.eq_zero_or_pos count
    · simp
    · have hover : fixedTypeSizeLimit + 1 ≤ (fixedTypeSizeLimit + 1) * count :=
        Nat.le_mul_of_pos_right _ hcount
      have hsize : (fixedTypeSizeLimit + 1) * count ≤ size * count := Nat.mul_le_mul_right _ hle
      rw [if_neg (by omega), Nat.min_eq_right (by omega)]
  · rw [Nat.min_eq_left (by omega)]
    by_cases hproduct : size * count ≤ fixedTypeSizeLimit
    · rw [if_pos hproduct, Nat.min_eq_left (by omega)]
    · rw [if_neg hproduct, Nat.min_eq_right (by omega)]

theorem cappedSize_of_width {format : NumberFormat} {n : Nat} (h : format.width = some n) :
    cappedSize n = n := by
  cases format <;> cases h <;> decide

theorem cappedSize_le_iff {n : Nat} :
    cappedSize n ≤ fixedTypeSizeLimit ↔ n ≤ fixedTypeSizeLimit := by
  rw [cappedSize]
  omega

/-! ## The sizes that are kept -/

/-- The size that the code keeps: none of what has none, and none where it was cut off. -/
def kept (found : Finding) : Option Nat := found.join.map cappedSize

def sizesOf (known : Memory Name) : Sizes := known.map fun (name, found) => (name, kept found)

theorem lookup_sizesOf (known : Memory Name) (name : Name) :
    (sizesOf known).lookup name = (known.lookup name).map kept := by
  induction known with
  | nil => rfl
  | cons entry known ih =>
      obtain ⟨other, found⟩ := entry
      rw [sizesOf, List.map_cons, List.lookup_cons, List.lookup_cons]
      split
      · rfl
      · exact ih

/-- The code finds what the walk finds, capped, and remembers the same. -/
def Keeps (find : Sizes → Option Nat × Sizes) (walked : Memory Name → Finding × Memory Name) :
    Prop :=
  ∀ known, find (sizesOf known) = (kept (walked known).1, sizesOf (walked known).2)

theorem kept_map {capped exact : Nat → Nat}
    (hcap : ∀ n, capped (cappedSize n) = cappedSize (exact n)) (found : Finding) :
    (kept found).map capped = kept (found.map (·.map exact)) := by
  obtain _ | _ | n := found
  · rfl
  · rfl
  · exact congrArg some (hcap n)

theorem sumSizes_keeps {find : TypeNode → Sizes → Option Nat × Sizes}
    {walked : TypeNode → Memory Name → Finding × Memory Name} {types : List TypeNode}
    (h : ∀ ty ∈ types, Keeps (find ty) (walked ty)) (total : Nat) (known : Memory Name) :
    sumSizes find (cappedSize total) types (sizesOf known) =
      (kept ((sumWalk walked types known).1.map (·.map (total + ·))),
        sizesOf (sumWalk walked types known).2) := by
  induction types generalizing total known with
  | nil => rfl
  | cons ty types ih =>
      rw [sumSizes, h ty List.mem_cons_self known, sumWalk]
      obtain ⟨found, known'⟩ := walked ty known
      obtain _ | _ | n := found
      · rfl
      · rfl
      · have hrest := ih (fun other hother => h other (List.mem_cons_of_mem _ hother)) (total + n)
          known'
        simp only [kept, Option.join_some, Option.map_some, cappedAdd_cappedSize] at hrest ⊢
        rw [hrest]
        simp only [Option.map_map, Function.comp_def, Nat.add_assoc]

section Sizes

variable {defs : Defs} {room : Nat} {visiting : List Name} {ty item : TypeNode}

/-- A type that the walk looks into without entering a link. -/
abbrev OwnForm (defs : Defs) (ty : TypeNode) (form : Form TypeNode) : Prop :=
  sizeForm defs ty = some form ∧ linkName ty = none

theorem sizeWalk_own {form : Form TypeNode} (hform : OwnForm defs ty form) (known : Memory Name) :
    sizeWalk defs (room + 1) visiting ty known =
      (form.whole (sumWalk (sizeWalk defs room visiting) form.parts known).1,
        (sumWalk (sizeWalk defs room visiting) form.parts known).2) := by
  rw [sizeWalk, walk, hform.1, hform.2]

theorem noForm_keeps (hform : sizeForm defs ty = none) :
    Keeps (fun known => (none, known)) (sizeWalk defs (room + 1) visiting ty) := by
  intro known
  rw [sizeWalk, walk, hform]
  rfl

theorem own_keeps {own : Nat} (hform : OwnForm defs ty ⟨own, 1, []⟩) :
    Keeps (fun known => (some (cappedSize own), known)) (sizeWalk defs (room + 1) visiting ty) := by
  intro known
  rw [sizeWalk_own hform]
  rfl

theorem parts_keeps {parts : List TypeNode} (hform : OwnForm defs ty ⟨0, 1, parts⟩)
    (ih : ∀ part ∈ parts,
      Keeps (fixedSizeOfType defs room visiting part) (sizeWalk defs room visiting part)) :
    Keeps (sumSizes (fixedSizeOfType defs room visiting) 0 parts)
      (sizeWalk defs (room + 1) visiting ty) := by
  intro known
  have hsum := sumSizes_keeps ih 0 known
  rw [show cappedSize 0 = 0 from rfl] at hsum
  rw [sizeWalk_own hform, hsum]
  simp only [Form.whole, Nat.one_mul]

theorem item_keeps {own times : Nat} {capped : Nat → Nat}
    (hform : OwnForm defs ty ⟨own, times, [item]⟩)
    (ih : Keeps (fixedSizeOfType defs room visiting item) (sizeWalk defs room visiting item))
    (hcap : ∀ n, capped (cappedSize n) = cappedSize (own + times * n)) :
    Keeps
      (fun known => ((fixedSizeOfType defs room visiting item known).1.map capped,
        (fixedSizeOfType defs room visiting item known).2))
      (sizeWalk defs (room + 1) visiting ty) := by
  intro known
  rw [sizeWalk_own hform, sumWalk_singleton, Form.whole, ← kept_map hcap]
  simp only [ih known]

theorem link_keeps {name : Name} {definition : TypeNode}
    (hfound : defs.lookup name = some definition)
    (ih : Keeps (fixedSizeOfType defs room (name :: visiting) definition)
      (sizeWalk defs room (name :: visiting) definition)) :
    Keeps (fixedSizeOfType defs (room + 1) visiting (.link name))
      (sizeWalk defs (room + 1) visiting (.link name)) := by
  have hform : sizeForm defs (.link name) = some ⟨0, 1, [definition]⟩ := by
    rw [sizeForm, hfound]
    rfl
  intro known
  rw [sizeWalk, walk, hform]
  simp only [fixedSizeOfType, hfound, linkName, lookup_sizesOf]
  cases known.lookup name with
  | some found => rfl
  | none =>
      simp only [Option.map_none]
      split
      · rfl
      · rw [ih known, sumWalk_singleton]
        simp [Form.whole, sizesOf]

/-- What the code finds is what the walk finds. -/
theorem fixedSizeOfType_keeps (defs : Defs) (room : Nat) (visiting : List Name) (ty : TypeNode) :
    Keeps (fixedSizeOfType defs room visiting ty) (sizeWalk defs room visiting ty) := by
  induction room generalizing visiting ty with
  | zero => exact fun known => rfl
  | succ room ih =>
      cases ty with
      | boolean size =>
          have hown : OwnForm defs (.boolean size) ⟨1, 1, []⟩ := ⟨rfl, rfl⟩
          exact own_keeps hown
      | publicKey =>
          have hown : OwnForm defs .publicKey ⟨32, 1, []⟩ := ⟨rfl, rfl⟩
          exact own_keeps hown
      | fixedSize => exact own_keeps ⟨rfl, rfl⟩
      | number number =>
          simp only [fixedSizeOfType, numberWireSize_eq_width]
          cases hwidth : number.format.width with
          | none => exact noForm_keeps (by simp [sizeForm, hwidth])
          | some n =>
              have hown : OwnForm defs (.number number) ⟨n, 1, []⟩ :=
                ⟨by simp [sizeForm, hwidth], rfl⟩
              rw [← cappedSize_of_width hwidth]
              exact own_keeps hown
      | hiddenPrefix | hiddenSuffix | struct | tuple =>
          exact parts_keeps ⟨rfl, rfl⟩ fun part _ => ih visiting part
      | array item count =>
          cases count with
          | fixed count =>
              have hitem : OwnForm defs (.array item (.fixed count)) ⟨0, count, [item]⟩ :=
                ⟨rfl, rfl⟩
              exact item_keeps hitem (ih visiting item)
                fun n => by rw [cappedMul_cappedSize, Nat.zero_add]
          | prefixed | remainder => exact noForm_keeps rfl
      | option fixed item number =>
          obtain _ | _ | _ := fixed
          · exact noForm_keeps rfl
          · exact noForm_keeps rfl
          · simp only [fixedSizeOfType, numberWireSize_eq_width]
            cases hwidth : number.getNestedTypeNode.format.width with
            | none => exact noForm_keeps (by simp [sizeForm, hwidth])
            | some tag =>
                have hitem : OwnForm defs (.option (some true) item number) ⟨tag, 1, [item]⟩ :=
                  ⟨by simp [sizeForm, hwidth], rfl⟩
                refine item_keeps hitem (ih visiting item) fun n => ?_
                rw [Nat.one_mul, ← cappedAdd_cappedSize, cappedSize_of_width hwidth]
      | link name =>
          cases hfound : defs.lookup name with
          | none =>
              simp only [fixedSizeOfType, hfound]
              exact noForm_keeps (by simp [sizeForm, hfound])
          | some definition => exact link_keeps hfound (ih (name :: visiting) definition)
      | string | bytes | sizePrefix | map | set | enum | unsupported => exact noForm_keeps rfl

/-- What is found of a type is right, unless the walk was cut off. -/
theorem sizeSurvey_exact {tys : List TypeNode} {size : Option Nat}
    (h : (ty, some size) ∈ sizeSurvey defs tys []) : Exact (sizeForm defs) ty size :=
  survey_exact linkName_injective (.nil _ _) h

theorem sizeSum_exact {types : List TypeNode} {size : Option Nat}
    (h : sizeSum defs types = some size) : Exact (sizeForm defs) (.tuple types) size := by
  have hform : sizeForm defs (.tuple types) = some ⟨0, 1, types⟩ := rfl
  have hparts : ∀ ty ∈ types,
      Sound (sizeForm defs) linkName ty (sizeWalk defs (nestingLimit + 1) [] ty) :=
    fun ty _ => walk_sound linkName_injective (.nil _ _ ty)
  refine whole_exact hform (sumWalk_sound hparts (.nil _ _)).2 ?_
  rw [Form.whole, ← sizeSum, h]
  simp

end Sizes

/-! ## One type -/

/-- A size that is defined is within the limit. -/
def WithinLimit (defs : Defs) (ty : TypeNode) : Prop :=
  ∀ n, HasFixedSize defs ty n → n ≤ fixedTypeSizeLimit

/-- What is asked of a type whatever is found of its size. -/
structure FitShape (defs : Defs) (ty : TypeNode) : Prop where
  notEnum : ∀ variants size, ty ≠ .enum variants size
  coption : ∀ item number, ty = .option (some true) item number → ∃ n, HasFixedSize defs ty n

/-- What is found refuses the type: it is beyond the limit, or it is a fixed option and the walk
for its size was cut off. -/
def Caught (defs : Defs) (ty : TypeNode) : Finding → Prop
  | some _ => ¬ WithinLimit defs ty
  | none => ∃ item number, ty = .option (some true) item number

section Checks

variable {defs : Defs} {ty : TypeNode}

theorem checkFixedSize_isOk {size : Option Nat} (h : Exact (sizeForm defs) ty size) :
    (checkFixedSize (size.map cappedSize)).isOk = true ↔ WithinLimit defs ty := by
  rw [checkFixedSize]
  cases size with
  | none =>
      refine ⟨fun _ n hn => ?_, fun _ => rfl⟩
      cases (h n).mpr hn
  | some n =>
      have hsize : HasFixedSize defs ty n := (h n).mp rfl
      have hwithin : WithinLimit defs ty ↔ cappedSize n ≤ fixedTypeSizeLimit :=
        ⟨fun hlimit => cappedSize_le_iff.mpr (hlimit n hsize),
          fun hle m hm => hsize.unique hm ▸ cappedSize_le_iff.mp hle⟩
      rw [hwithin]
      by_cases hle : cappedSize n ≤ fixedTypeSizeLimit
      · simp [hle, Nat.not_lt.mpr hle, Except.isOk, Except.toBool]
      · simp [hle, Nat.lt_of_not_le hle, Except.isOk, Except.toBool]

/-- With the exact size the check decides the shape and the limit. -/
theorem checkShape_isOk {size : Option Nat} (h : Exact (sizeForm defs) ty size) :
    (checkShape ty (size.map cappedSize)).isOk = true ↔ FitShape defs ty ∧ WithinLimit defs ty := by
  rw [checkShape.eq_def]
  split
  · next variants size =>
      exact ⟨Bool.false_ne_true.elim, fun hfits => absurd rfl (hfits.1.notEnum variants size)⟩
  · next item number hnone =>
      obtain rfl : size = none := by simpa using hnone
      refine ⟨Bool.false_ne_true.elim, fun hfits => ?_⟩
      obtain ⟨n, hn⟩ := hfits.1.coption item number rfl
      cases (h n).mpr hn
  · next henum hoption =>
      rw [checkFixedSize_isOk h]
      refine ⟨fun hlimit => ⟨⟨henum, fun item number hty => ?_⟩, hlimit⟩, fun hfits => hfits.2⟩
      cases size with
      | none => exact absurd rfl (hoption item number hty)
      | some n => exact ⟨n, (h n).mp rfl⟩

/-- Without a size only the shape is looked at. -/
theorem checkShape_none_isOk :
    (checkShape ty none).isOk = true ↔
      (∀ variants size, ty ≠ .enum variants size) ∧
        ∀ item number, ty ≠ .option (some true) item number := by
  rw [checkShape.eq_def]
  split
  · next variants size => exact ⟨Bool.false_ne_true.elim, fun h => absurd rfl (h.1 variants size)⟩
  · next item number hnone =>
      exact ⟨Bool.false_ne_true.elim, fun h => absurd rfl (h.2 item number)⟩
  · next henum hoption =>
      exact ⟨fun _ => ⟨henum, fun item number hty => hoption item number hty rfl⟩, fun _ => rfl⟩

theorem checkShape_kept_isOk {found : Finding}
    (h : ∀ size, found = some size → Exact (sizeForm defs) ty size) (hshaped : FitShape defs ty) :
    (checkShape ty (kept found)).isOk = true ↔ ¬ Caught defs ty found := by
  cases found with
  | none =>
      rw [kept, Option.join_none, Option.map_none, checkShape_none_isOk, Caught]
      simp only [not_exists]
      exact ⟨fun hpasses => hpasses.2, fun hfree => ⟨hshaped.notEnum, hfree⟩⟩
  | some size =>
      rw [kept, Option.join_some, checkShape_isOk (h size rfl), Caught, not_not]
      exact ⟨fun hpasses => hpasses.2, fun hlimit => ⟨hshaped, hlimit⟩⟩

theorem shaped_of_checkShape {found : Finding}
    (h : ∀ size, found = some size → Exact (sizeForm defs) ty size)
    (hpasses : (checkShape ty (kept found)).isOk = true) : FitShape defs ty := by
  cases found with
  | none =>
      obtain ⟨henum, hoption⟩ := checkShape_none_isOk.mp hpasses
      exact ⟨henum, fun item number hty => absurd hty (hoption item number)⟩
  | some size =>
      rw [kept, Option.join_some, checkShape_isOk (h size rfl)] at hpasses
      exact hpasses.1

end Checks

/-! ## Many types -/

section Surveys

variable {defs : Defs} {known : Memory Name} {tys : List TypeNode}

/-- The types pass with what is found of them one after the other. -/
def AllPass (defs : Defs) (known : Memory Name) (tys : List TypeNode) : Prop :=
  ∀ entry ∈ sizeSurvey defs tys known, (checkShape entry.1 (kept entry.2)).isOk = true

/-- The check passes exactly where the types pass and the rest holds that it looks at, and
leaves what their survey leaves. -/
def Surveys (defs : Defs) (known : Memory Name) (tys : List TypeNode) (rest : Prop)
    (check : Except Error Sizes) : Prop :=
  Decides (· = sizesOf (sizeMemory defs tys known)) (rest ∧ AllPass defs known tys) check

theorem allPass_append {tys' : List TypeNode} :
    AllPass defs known (tys ++ tys') ↔
      AllPass defs known tys ∧ AllPass defs (sizeMemory defs tys known) tys' := by
  rw [AllPass, sizeSurvey, survey_append]
  exact List.forall_mem_append

theorem checkOne_surveys (known : Memory Name) (ty : TypeNode) :
    Surveys defs known [ty] True (checkOne defs (sizesOf known) ty) := by
  have hfound := fixedSizeOfType_keeps defs (nestingLimit + 1) [] ty known
  rw [checkOne, hfound]
  refine Decides.congr (P := (checkShape ty
    (kept (sizeWalk defs (nestingLimit + 1) [] ty known).1)).isOk = true) ?_ ?_
  · cases hchecked : checkShape ty (kept (sizeWalk defs (nestingLimit + 1) [] ty known).1) with
    | ok =>
        refine .inl ⟨_, ?_, rfl, rfl⟩
        simp only [hchecked]
        rfl
    | error e =>
        refine .inr ⟨⟨e, ?_⟩, Bool.false_ne_true⟩
        simp only [hchecked]
        rfl
  · simp [AllPass, survey]

/-- Checks that follow each other survey all types. -/
theorem Surveys.bind {rest rest' : Prop} {tys' : List TypeNode} {check : Except Error Sizes}
    {next : Sizes → Except Error Sizes} (h : Surveys defs known tys rest check)
    (hnext : Surveys defs (sizeMemory defs tys known) tys' rest'
      (next (sizesOf (sizeMemory defs tys known)))) :
    Surveys defs known (tys ++ tys') (rest ∧ rest') (check >>= next) := by
  have hboth : Decides (· = sizesOf (sizeMemory defs (tys ++ tys') known))
      ((rest ∧ AllPass defs known tys) ∧
        rest' ∧ AllPass defs (sizeMemory defs tys known) tys') (check >>= next) := by
    refine Decides.bind h fun found hfound => ?_
    rw [hfound, sizeMemory, memory_append]
    exact hnext
  refine hboth.congr ?_
  rw [allPass_append, and_and_and_comm]

theorem Surveys.congr {rest rest' : Prop} {check : Except Error Sizes}
    (h : Surveys defs known tys rest check) (hiff : rest ↔ rest') :
    Surveys defs known tys rest' check :=
  Decides.congr h (and_congr_left' hiff)

theorem Surveys.done (known : Memory Name) :
    Surveys defs known [] True (.ok (sizesOf known)) :=
  .inl ⟨_, rfl, rfl, trivial, by simp [AllPass, survey]⟩

theorem Surveys.foldlM {ι : Type} {step : Sizes → ι → Except Error Sizes} {items : List ι}
    {types : ι → List TypeNode} {rest : ι → Prop}
    (h : ∀ item ∈ items, ∀ known, Surveys defs known (types item) (rest item)
      (step (sizesOf known) item)) (known : Memory Name) :
    Surveys defs known (items.flatMap types) (∀ item ∈ items, rest item)
      (items.foldlM step (sizesOf known)) := by
  induction items generalizing known with
  | nil => exact (Surveys.done known).congr (by simp)
  | cons item items ih =>
      rw [List.foldlM_cons, List.flatMap_cons]
      have hrest := ih (fun other hother => h other (List.mem_cons_of_mem _ hother))
      exact ((h item List.mem_cons_self known).bind (hrest _)).congr List.forall_mem_cons.symm

theorem checkNode_surveys (known : Memory Name) (ty : TypeNode) :
    Surveys defs known (visited ty) True (checkNode defs (sizesOf known) ty) := by
  have hvisited : Surveys defs known ((visited ty).flatMap fun sub => [sub])
      (∀ sub ∈ visited ty, True) (checkNode defs (sizesOf known) ty) :=
    Surveys.foldlM (fun sub _ known => checkOne_surveys known sub) known
  rw [List.flatMap_singleton'] at hvisited
  exact hvisited.congr (by simp)

theorem checkNodes_surveys (known : Memory Name) (types : List TypeNode) :
    Surveys defs known (types.flatMap visited) True
      (types.foldlM (checkNode defs) (sizesOf known)) :=
  have hnodes : Surveys defs known (types.flatMap visited) (∀ ty ∈ types, True)
      (types.foldlM (checkNode defs) (sizesOf known)) :=
    Surveys.foldlM (fun ty _ known => checkNode_surveys known ty) known
  hnodes.congr (by simp)

/-- What is found of the sum does not refuse the item. -/
def SumPasses (defs : Defs) (types : List TypeNode) : Prop :=
  sizeSum defs types = none ∨ WithinLimit defs (.tuple types)

theorem fixedSizeSum_eq (types : List TypeNode) :
    fixedSizeSum defs types = kept (sizeSum defs types) := by
  have hsum := sumSizes_keeps
    (fun ty (_ : ty ∈ types) => fixedSizeOfType_keeps defs (nestingLimit + 1) [] ty) 0 []
  rw [fixedSizeSum, show 0 = cappedSize 0 from rfl, show ([] : Sizes) = sizesOf [] from rfl, hsum]
  simp [sizeSum]

/-- The sum of the types of an item is that of a tuple. -/
theorem fixedSizeSum_isOk (types : List TypeNode) :
    (checkFixedSize (fixedSizeSum defs types)).isOk = true ↔ SumPasses defs types := by
  rw [fixedSizeSum_eq, SumPasses]
  cases hsum : sizeSum defs types with
  | none => exact ⟨fun _ => .inl rfl, fun _ => rfl⟩
  | some size =>
      rw [kept, Option.join_some, checkFixedSize_isOk (sizeSum_exact hsum)]
      simp

theorem checkSum_surveys (kind : ItemKind) (raw : Name) (known : Memory Name)
    (types : List TypeNode) :
    Surveys defs known (types.flatMap visited) (SumPasses defs types)
      (checkSum defs kind raw (sizesOf known) types) := by
  have hsum : (checkFixedSize (fixedSizeSum defs types)).isOk = true ↔ SumPasses defs types :=
    fixedSizeSum_isOk types
  refine Decides.mapError (Decides.congr (Decides.bind (I := fun _ => True) ?_ fun _ _ =>
    checkNodes_surveys known types) (P := SumPasses defs types ∧ _) (by rw [true_and]))
  cases hchecked : checkFixedSize (fixedSizeSum defs types) with
  | ok => exact .inl ⟨(), rfl, trivial, hsum.mp (by rw [hchecked]; rfl)⟩
  | error e =>
      refine .inr ⟨⟨e, rfl⟩, fun hpasses => ?_⟩
      have hok := hsum.mpr hpasses
      rw [hchecked] at hok
      cases hok

/-- The types that are checked of a defined type, which may be an enum itself. -/
def definedChecked (ty : TypeNode) : List TypeNode :=
  match ty with
  | .enum variants size => (walked (.enum variants size)).flatMap visited
  | body => visited body

theorem checkDefined_surveys (known : Memory Name) (definedType : DefinedTypeNode) :
    Surveys defs known (definedChecked definedType.type) True
      (checkDefined defs (sizesOf known) definedType) := by
  obtain ⟨name, type⟩ := definedType
  cases type with
  | enum variants size => exact checkNodes_surveys known _
  | _ => exact checkNode_surveys known _

theorem checkTypes_surveys (hdefs : WrittenDefs defs) (types : List (Name × DefinedTypeNode))
    (known : Memory Name) {chains : Depths} (hchains : KnownLongest defs chains) :
    Surveys defs known (types.flatMap (definedChecked ·.2.type))
      (AliasesBounded defs (types.map (·.2.name)))
      (checkTypes defs types (sizesOf known) chains) := by
  induction types generalizing known chains with
  | nil => exact (Surveys.done known).congr ⟨fun _ => .of_short (by simp), fun _ => trivial⟩
  | cons entry types ih =>
      obtain ⟨raw, ty⟩ := entry
      rw [List.map_cons, aliasesBounded_cons, List.flatMap_cons, checkTypes]
      have hdefined : Surveys defs known (definedChecked ty.type) True
          (checkDefined defs (sizesOf known) ty) := checkDefined_surveys known ty
      obtain ⟨known', hrun, rfl, -, hpass⟩ | ⟨⟨e, herror⟩, hnot⟩ := hdefined
      · obtain ⟨n, chains', hok, hchains', hshort⟩ | ⟨hlimit, hlong⟩ :=
          aliasDepth_call hdefs hchains ty.name
        · simp only [hrun, hok]
          have hrest := ih (sizeMemory defs (definedChecked ty.type) known) hchains'
          rw [Surveys, sizeMemory, memory_append, allPass_append]
          refine Decides.congr hrest ?_
          exact ⟨fun h => ⟨⟨hshort, h.1⟩, hpass, h.2⟩, fun h => ⟨h.1.2, h.2.2⟩⟩
        · simp only [hrun, hlimit]
          exact .inr ⟨⟨_, rfl⟩, fun hall => hlong hall.1.1⟩
      · simp only [herror]
        rw [Surveys, allPass_append]
        exact .inr ⟨⟨_, rfl⟩, fun hall => hnot ⟨trivial, hall.2.1⟩⟩

end Surveys

/-! ## All items -/

/-- The types of the fields of an account. -/
def dataTypes (account : AccountNode) : List TypeNode :=
  match account.data with
  | .value fields => fields.map (·.type)
  | .wrapped _ _ => []

section Items

variable (types : List (Name × DefinedTypeNode)) (accounts : List (Name × AccountNode))
  (events : List (Name × EventNode)) (instructions : List (Name × InstructionNode))

/-- The types of the items, apart from the defined ones. -/
def itemTypes : List TypeNode :=
  accounts.flatMap (dataTypes ·.2) ++ events.map (·.2.data) ++
    instructions.flatMap (·.2.arguments.map (·.type))

/-- Every type that `check_node` is called for, in the order of the calls. -/
def checkedTypes : List TypeNode :=
  types.flatMap (definedChecked ·.2.type) ++
    (itemTypes accounts events instructions).flatMap visited

/-- What is asked of the items whatever the order of the types is. -/
structure Admissible (defs : Defs) : Prop where
  shaped : ∀ ty ∈ checkedTypes types accounts events instructions, FitShape defs ty
  aliases : AliasesBounded defs (types.map (·.2.name))
  accounts : ∀ account ∈ accounts, SumPasses defs (dataTypes account.2)
  instructions : ∀ ix ∈ instructions, SumPasses defs (ix.2.arguments.map (·.type))

/-- In the given order of the types one is found that is refused for its size. -/
def CaughtInOrder (defs : Defs) : Prop :=
  ∃ entry ∈ sizeSurvey defs (checkedTypes types accounts events instructions) [],
    Caught defs entry.1 entry.2

/-- No size that is defined is above the limit. -/
structure InBounds (defs : Defs) : Prop where
  types : ∀ entry ∈ types, WithinLimit defs entry.2.type
  accounts : ∀ account ∈ accounts, ∃ fields,
    account.2.data = .value fields ∧ WithinLimit defs (.struct fields)
  events : ∀ event ∈ events, WithinLimit defs event.2.data
  instructions : ∀ ix ∈ instructions, WithinLimit defs (.tuple (ix.2.arguments.map (·.type)))

end Items

section Verdict

variable {types : List (Name × DefinedTypeNode)} {accounts : List (Name × AccountNode)}
  {events : List (Name × EventNode)} {instructions : List (Name × InstructionNode)} {defs : Defs}

theorem checkAccount_surveys (known : Memory Name) (account : Name × AccountNode) :
    Surveys defs known ((dataTypes account.2).flatMap visited)
      (SumPasses defs (dataTypes account.2)) (checkAccount defs (sizesOf known) account) := by
  obtain ⟨raw, name, data, discriminators⟩ := account
  cases data with
  | value fields => exact checkSum_surveys _ _ known _
  | wrapped wrapper inner =>
      refine (Surveys.done known).congr ⟨fun _ => .inr fun n hn => ?_, fun _ => trivial⟩
      obtain ⟨f, sizes, hform, hsizes, rfl⟩ := hasSize_iff.mp hn
      cases hform
      cases hsizes
      exact Nat.zero_le _

theorem checkEvent_surveys (known : Memory Name) (event : Name × EventNode) :
    Surveys defs known (visited event.2.data) True (checkEvent defs (sizesOf known) event) :=
  Decides.mapError (checkNode_surveys known event.2.data)

theorem checkInstruction_surveys (known : Memory Name) (ix : Name × InstructionNode) :
    Surveys defs known ((ix.2.arguments.map (·.type)).flatMap visited)
      (SumPasses defs (ix.2.arguments.map (·.type))) (checkInstruction defs (sizesOf known) ix) :=
  checkSum_surveys _ _ known _

/-- Where every type has its shape, all pass when none is refused for its size. -/
theorem allPass_iff {tys : List TypeNode} :
    AllPass defs [] tys ↔
      (∀ ty ∈ tys, FitShape defs ty) ∧
        ¬ ∃ entry ∈ sizeSurvey defs tys [], Caught defs entry.1 entry.2 := by
  have hexact : ∀ entry ∈ sizeSurvey defs tys [], ∀ size, entry.2 = some size →
      Exact (sizeForm defs) entry.1 size := by
    rintro ⟨ty, found⟩ hentry size rfl
    exact sizeSurvey_exact hentry
  constructor
  · intro hpass
    have hshaped : ∀ ty ∈ tys, FitShape defs ty := by
      intro ty hty
      obtain ⟨found, hentry⟩ : ∃ found, (ty, found) ∈ sizeSurvey defs tys [] :=
        exists_mem_survey hty
      exact shaped_of_checkShape (hexact _ hentry) (hpass _ hentry)
    refine ⟨hshaped, ?_⟩
    rintro ⟨entry, hentry, hcaught⟩
    have hty := hshaped entry.1 (mem_of_mem_survey hentry)
    exact (checkShape_kept_isOk (hexact entry hentry) hty).mp (hpass entry hentry) hcaught
  · rintro ⟨hshaped, hfree⟩ entry hentry
    have hty := hshaped entry.1 (mem_of_mem_survey hentry)
    exact (checkShape_kept_isOk (hexact entry hentry) hty).mpr
      fun hcaught => hfree ⟨entry, hentry, hcaught⟩

theorem checkedTypes_eq : checkedTypes types accounts events instructions =
    types.flatMap (definedChecked ·.2.type) ++
      ((accounts.flatMap fun account => (dataTypes account.2).flatMap visited) ++
        ((events.flatMap fun event => visited event.2.data) ++
          instructions.flatMap fun ix => (ix.2.arguments.map (·.type)).flatMap visited)) := by
  simp only [checkedTypes, itemTypes, List.flatMap_append, List.flatMap_assoc, List.flatMap_map,
    List.append_assoc]

/-- All checks, with the sizes they leave. -/
def checkKnown (defs : Defs) (types : List (Name × DefinedTypeNode))
    (accounts : List (Name × AccountNode)) (events : List (Name × EventNode))
    (instructions : List (Name × InstructionNode)) : Except Error Sizes := do
  let known ← checkTypes defs types [] []
  let known ← accounts.foldlM (checkAccount defs) known
  let known ← events.foldlM (checkEvent defs) known
  instructions.foldlM (checkInstruction defs) known

theorem checkKnown_surveys (hdefs : WrittenDefs defs) :
    Surveys defs [] (checkedTypes types accounts events instructions)
      (AliasesBounded defs (types.map (·.2.name)) ∧
        (∀ account ∈ accounts, SumPasses defs (dataTypes account.2)) ∧ (∀ event ∈ events, True) ∧
        ∀ ix ∈ instructions, SumPasses defs (ix.2.arguments.map (·.type)))
      (checkKnown defs types accounts events instructions) := by
  rw [checkedTypes_eq]
  refine Surveys.bind (checkTypes_surveys hdefs types [] (knownLongest_nil _)) ?_
  refine Surveys.bind (.foldlM (fun account _ known => checkAccount_surveys known account) _) ?_
  refine Surveys.bind (.foldlM (fun event _ known => checkEvent_surveys known event) _) ?_
  exact .foldlM (fun ix _ known => checkInstruction_surveys known ix) _

/-- The check decides what is asked of the items, and that none is refused for its size. -/
theorem checkRenderable_isOk (hdefs : WrittenDefs (defsOf (types.map (·.2)))) :
    (checkRenderable types accounts events instructions).isOk = true ↔
      Admissible types accounts events instructions (defsOf (types.map (·.2))) ∧
        ¬ CaughtInOrder types accounts events instructions (defsOf (types.map (·.2))) := by
  have hknown : Surveys _ [] (checkedTypes types accounts events instructions) _
      (checkKnown _ types accounts events instructions) := checkKnown_surveys hdefs
  have hcheck := Decides.bind hknown
    fun _ _ => Decides.pure (I := fun _ : Unit => True) (s := ()) trivial
  have hsame : checkRenderable types accounts events instructions =
      checkKnown (defsOf (types.map (·.2))) types accounts events instructions >>=
        fun _ => .ok () := by
    simp only [checkRenderable, checkKnown, bind_assoc]
    rfl
  rw [hsame, hcheck.isOk_iff, allPass_iff]
  constructor
  · rintro ⟨⟨⟨haliases, haccounts, -, hinstructions⟩, hshaped, hfree⟩, -⟩
    exact ⟨⟨hshaped, haliases, haccounts, hinstructions⟩, hfree⟩
  · rintro ⟨h, hfree⟩
    exact ⟨⟨⟨h.aliases, h.accounts, fun _ _ => trivial, h.instructions⟩, h.shaped, hfree⟩, trivial⟩

/-- Where no walk is cut off, the check decides a property that mentions no order. -/
theorem checkRenderable_isOk_of_uncut (hdefs : WrittenDefs (defsOf (types.map (·.2))))
    (huncut : ∀ entry ∈ sizeSurvey (defsOf (types.map (·.2)))
      (checkedTypes types accounts events instructions) [], entry.2 ≠ none) :
    (checkRenderable types accounts events instructions).isOk = true ↔
      Admissible types accounts events instructions (defsOf (types.map (·.2))) ∧
        ∀ ty ∈ checkedTypes types accounts events instructions,
          WithinLimit (defsOf (types.map (·.2))) ty := by
  rw [checkRenderable_isOk hdefs]
  refine and_congr_right' ⟨fun hfree ty hty => ?_, fun hlimit => ?_⟩
  · obtain ⟨found, hentry⟩ : ∃ found, (ty, found) ∈ sizeSurvey (defsOf (types.map (·.2)))
        (checkedTypes types accounts events instructions) [] := exists_mem_survey hty
    obtain ⟨size, rfl⟩ := Option.ne_none_iff_exists'.mp (huncut _ hentry)
    by_contra hover
    exact hfree ⟨_, hentry, hover⟩
  · rintro ⟨⟨ty, found⟩, hentry, hcaught⟩
    obtain ⟨size, rfl⟩ := Option.ne_none_iff_exists'.mp (huncut _ hentry)
    exact hcaught (hlimit ty (mem_of_mem_survey hentry))

/-! ### Order -/

theorem withinLimit_congr {defs' : Defs} (h : sizeForm defs = sizeForm defs') :
    WithinLimit defs = WithinLimit defs' := by
  funext ty
  rw [WithinLimit, WithinLimit, HasFixedSize, HasFixedSize, h]

theorem sumPasses_congr {defs' : Defs} (h : sizeForm defs = sizeForm defs') :
    SumPasses defs = SumPasses defs' := by
  funext types
  rw [SumPasses, SumPasses, sizeSum, sizeSum, sizeWalk, sizeWalk, h, withinLimit_congr h]

theorem FitShape.congr {defs' : Defs} {ty : TypeNode} (h : sizeForm defs = sizeForm defs')
    (hshaped : FitShape defs ty) : FitShape defs' ty where
  notEnum := hshaped.notEnum
  coption := by
    have hcoption := hshaped.coption
    rw [HasFixedSize, h] at hcoption
    exact hcoption

theorem mem_checkedTypes_perm {types' : List (Name × DefinedTypeNode)} (h : types.Perm types')
    {ty : TypeNode} :
    ty ∈ checkedTypes types accounts events instructions ↔
      ty ∈ checkedTypes types' accounts events instructions :=
  ((h.flatMap_right _).append_right _).mem_iff

theorem Admissible.perm {types' : List (Name × DefinedTypeNode)} {defs' : Defs}
    (h : types.Perm types') (hform : sizeForm defs = sizeForm defs')
    (haliases : AliasesBounded defs (types.map (·.2.name)) ↔
      AliasesBounded defs' (types'.map (·.2.name)))
    (hadmissible : Admissible types accounts events instructions defs) :
    Admissible types' accounts events instructions defs' where
  shaped := fun ty hty =>
    (hadmissible.shaped ty ((mem_checkedTypes_perm h).mpr hty)).congr hform
  aliases := haliases.mp hadmissible.aliases
  accounts := by
    rw [← sumPasses_congr hform]
    exact hadmissible.accounts
  instructions := by
    rw [← sumPasses_congr hform]
    exact hadmissible.instructions

end Verdict

/-! ## What the converter writes -/

theorem written_fixedBytes (len : Nat) : Written (fixedBytes len) :=
  written_wrapper trivial rfl (written_of_leaf trivial rfl)

theorem accountNode_written {account : Item} {fields : List StructFieldTypeNode}
    {node : AccountNode} (h : accountNode account fields = .ok node)
    (hfields : ∀ field ∈ fields, Written field.type) :
    (∃ fields, node.data = .value fields) ∧ ∀ ty ∈ dataTypes node, Written ty := by
  rw [accountNode] at h
  split at h
  · cases h
  · obtain ⟨name, -, h⟩ := bind_eq_ok.mp h
    cases h
    refine ⟨⟨_, rfl⟩, fun ty hty => ?_⟩
    obtain ⟨field, hfield, rfl⟩ := List.mem_map.mp hty
    obtain rfl | hfield := List.mem_cons.mp hfield
    · exact written_fixedBytes _
    · exact hfields field hfield

theorem eventNode_written {event : Item} {fields : List StructFieldTypeNode} {node : EventNode}
    (h : eventNode event fields = .ok node) (hfields : ∀ field ∈ fields, Written field.type) :
    Written node.data := by
  rw [eventNode] at h
  split at h
  · cases h
  · obtain ⟨name, -, h⟩ := bind_eq_ok.mp h
    cases h
    refine written_iff.mpr ⟨trivial, fun child hchild => ?_⟩
    obtain rfl | hchild := List.mem_cons.mp hchild
    · exact written_struct hfields
    · cases List.mem_singleton.mp hchild
      exact written_fixedBytes _

theorem instructionNode_written {ix : Item} {accounts : List InstructionAccountNode}
    {args : List InstructionArgumentNode} {node : InstructionNode}
    (h : instructionNode ix accounts args = .ok node) (hargs : ∀ arg ∈ args, Written arg.type) :
    ∀ arg ∈ node.arguments, Written arg.type := by
  rw [instructionNode] at h
  split at h
  · cases h
  · obtain ⟨name, -, h⟩ := bind_eq_ok.mp h
    cases h
    rintro arg (_ | ⟨_, harg⟩)
    · exact written_fixedBytes _
    · exact hargs arg harg

/-! ## The limit -/

section Limit

variable {types : List (Name × DefinedTypeNode)} {accounts : List (Name × AccountNode)}
  {events : List (Name × EventNode)} {instructions : List (Name × InstructionNode)} {defs : Defs}

end Limit

def chainName (k : Nat) : Name := 't' :: (Nat.toDigits 10 k)

def declared (name : Name) (fields : List TypeNode) : Name × DefinedTypeNode :=
  (name, ⟨name, .struct (fields.zipIdx.map fun (type, i) => ⟨chainName i, none, type, none⟩)⟩)

end Shipstern.Anchor
