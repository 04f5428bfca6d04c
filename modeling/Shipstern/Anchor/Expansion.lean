import Shipstern.Anchor.IdlType
import Shipstern.Lib.Fallible

/-!
# Conversion expands generic types without capture

The converter walks the body of a generic type in a scope with resolved arguments. Each run
that succeeds has the same result as the conversion of the expanded type, in which every use
is replaced by the body of its definition.

A const parameter must not look like a number and must not share its name with a type
parameter of the same definition; the converter checks neither.
-/

namespace Shipstern.Anchor

open Codama Budgeted IdlType

/-! ## Closed types -/

/-- Every const argument of the list satisfies the property. -/
def ConstArgs (P : Name → Prop) (args : List (GenericArg IdlType)) : Prop :=
  ∀ value, .const value ∈ args → P value

/-- No parameter is mentioned, and every const argument is a number. -/
def IdlType.Closed : IdlType → Prop :=
  Everywhere fun
    | .generic _ => False
    | .defined _ args => ConstArgs (fun value => (constNumber value).isSome) args
    | _ => True

def GenericArg.Closed : GenericArg IdlType → Prop
  | .type ty => ty.Closed
  | .const value => (constNumber value).isSome
  | .missing => True

/-- Every const argument that is not a number names one of the const parameters. -/
def IdlType.ConstsIn (names : List Name) : IdlType → Prop :=
  Everywhere fun
    | .defined _ args => ConstArgs (fun value => (constNumber value).isSome ∨ value ∈ names) args
    | _ => True

/-- The substitution leaves the type as it is. -/
def IdlType.Untouched (σ : Scope) : IdlType → Prop :=
  Everywhere fun
    | .generic name => σ.substName name = .generic name
    | .defined _ args => ConstArgs (fun value => σ.substConst value = .const value) args
    | _ => True

theorem substArg_eq_self {σ : Scope} {args : List (GenericArg IdlType)}
    (hconst : ConstArgs (fun value => σ.substConst value = .const value) args)
    (htype : ∀ ty ∈ args.filterMap GenericArg.type?, subst σ ty = ty) :
    args.map (substArg σ) = args := by
  refine (List.map_congr_left fun arg harg => ?_).trans (List.map_id args)
  cases arg with
  | type ty => exact congrArg GenericArg.type (htype ty (List.mem_filterMap.mpr ⟨_, harg, rfl⟩))
  | const value => exact hconst value harg
  | missing => rfl

theorem substFields_eq_self {σ : Scope} {fields : IdlFields IdlType}
    (h : ∀ ty ∈ fields.types, subst σ ty = ty) : fields.map (subst σ) = fields := by
  cases fields with
  | none => rfl
  | named fields =>
      refine congrArg IdlFields.named ((List.map_congr_left fun field hfield => ?_).trans
        (List.map_id fields))
      rw [IdlField.map, h field.ty (List.mem_map_of_mem hfield)]
      rfl
  | tuple items =>
      exact congrArg IdlFields.tuple ((List.map_congr_left h).trans (List.map_id items))

theorem subst_eq_self {σ : Scope} {ty : IdlType} (h : ty.Untouched σ) : subst σ ty = ty := by
  induction ty using IdlType.induction with
  | step ty ih =>
      have hbelow : ∀ child ∈ ty.children, subst σ child = child :=
        fun child hchild => ih child hchild (h.child hchild)
      cases ty with
      | leaf | number => rfl
      | generic name => exact h.here
      | array item len =>
          rw [subst, hbelow item List.mem_cons_self,
            hbelow len (List.mem_cons_of_mem item (List.mem_singleton.mpr rfl))]
      | vec item | option item | coption item | aliasOf form item =>
          rw [subst, hbelow item (List.mem_singleton.mpr rfl)]
      | defined name args => rw [subst, substArgs_eq, substArg_eq_self h.here hbelow]
      | struct fields => rw [subst, substFields_eq, substFields_eq_self hbelow]
      | enum variants =>
          rw [subst, substVariants_eq]
          refine congrArg IdlType.enum ((List.map_congr_left fun variant hvariant => ?_).trans
            (List.map_id variants))
          rw [IdlVariant.map, substFields_eq_self fun ty hty =>
            hbelow ty (List.mem_flatMap.mpr ⟨variant, hvariant, hty⟩)]
          rfl

theorem untouched_empty (ty : IdlType) : ty.Untouched .empty := by
  induction ty using IdlType.induction with
  | step ty ih =>
      refine ⟨?_, ih⟩
      cases ty with
      | leaf | number | array | vec | option | coption | aliasOf | struct | enum => trivial
      | generic name => rfl
      | defined name args => exact fun value _ => ite_self _

/-- The arguments are closed, a const parameter is not a number, and no name is both a const
and a type parameter. -/
structure Scope.Proper (σ : Scope) : Prop where
  const : ∀ name arg, σ.constArgs.lookup name = some arg → arg.Closed ∧ constNumber name = none
  type : ∀ name arg, σ.typeArgs.lookup name = some arg → arg.Closed
  disjoint : ∀ name arg, σ.constArgs.lookup name = some arg → σ.typeArgs.lookup name = none

theorem Scope.Proper.empty : Scope.empty.Proper := by
  constructor <;> intro name arg h <;> cases h

theorem Scope.Proper.typeOf {σ : Scope} (hσ : σ.Proper) {name : Name} {ty : IdlType}
    (h : σ.typeOf name = some ty) : ty.Closed := by
  rw [Scope.typeOf, Option.bind_eq_some_iff] at h
  obtain ⟨arg, harg, htype⟩ := h
  have hclosed := hσ.type name arg harg
  cases arg with
  | type t =>
      cases htype
      exact hclosed
  | const value => cases htype
  | missing => cases htype

theorem IdlType.Closed.untouched (σ : Scope) {ty : IdlType} (h : ty.Closed) :
    ty.Untouched σ := by
  refine h.imp fun ty hty => ?_
  cases ty with
  | leaf | number | array | vec | option | coption | aliasOf | struct | enum => trivial
  | generic name => exact hty.elim
  | defined name args =>
      intro value hvalue
      exact if_pos (hty value hvalue)

/-! ## Resolved arguments -/

/-- The scope as the converter has it. -/
def Scope.toGenerics (σ : Scope) (types : List IdlTypeDef) : Generics where
  types := types.map IdlTypeDef.toTypeDef
  constArgs := σ.constArgs.map fun (name, arg) => (name, argJson arg)
  typeArgs := σ.typeArgs.map fun (name, arg) => (name, argJson arg)

theorem lookup_map_snd {β γ : Type} (f : β → γ) (entries : List (Name × β)) (name : Name) :
    (entries.map fun (key, value) => (key, f value)).lookup name =
      (entries.lookup name).map f := by
  induction entries with
  | nil => rfl
  | cons entry entries ih =>
      obtain ⟨key, value⟩ := entry
      rw [List.map_cons, List.lookup_cons, List.lookup_cons]
      split <;> simp_all

section Resolve

variable {σ : Scope} {types : List IdlTypeDef}

theorem constArg_toGenerics (name : Name) :
    (σ.toGenerics types).constArg name = (σ.constArgs.lookup name).map argJson :=
  lookup_map_snd argJson σ.constArgs name

theorem boundType_toGenerics (name : Name) :
    (σ.toGenerics types).boundType name = (σ.typeOf name).map toJson := by
  rw [Generics.boundType, Scope.toGenerics, lookup_map_snd, Scope.typeOf]
  cases σ.typeArgs.lookup name with
  | none => rfl
  | some arg => cases arg <;> rfl

theorem constValue_const (raw : List Char) :
    constValue (argJson (.const raw)) = match constNumber raw with
      | some len => .ok len
      | none => .error (.invalidArrayLength raw) := rfl

theorem constValue_argJson {arg : GenericArg IdlType} {n : Nat}
    (h : constValue (argJson arg) = .ok n) : arg.number? = some n := by
  cases arg with
  | missing => cases h
  | const raw =>
      rw [constValue_const] at h
      show constNumber raw = some n
      cases hnumber : constNumber raw with
      | none =>
          rw [hnumber] at h
          cases h
      | some len =>
          rw [hnumber] at h
          cases h
          rfl
  | type ty =>
      cases ty with
      | number m =>
          cases h
          rfl
      | aliasOf form target => cases form <;> cases h
      | defined name args => cases args <;> cases h
      | struct fields => cases fields <;> cases h
      | leaf | array | vec | option | coption | generic | enum => cases h

/-- Every run that resolves the value returns the given one, and only if the proposition
holds. -/
def ResolvesTo (g : Generics) (value result : Value) (P : Prop) : Prop :=
  ∀ room, Returns (g.resolve room value) fun resolved => resolved = result ∧ P

/-- The same for the entries of an object. -/
def EntriesTo (g : Generics) (entries results : List (Key × Value)) (P : Prop) : Prop :=
  ∀ room, Returns (entries.mapM fun entry => do
    let value ← g.resolve room entry.snd
    pure (entry.fst, value)) fun resolved => resolved = results ∧ P

section

variable {g : Generics} {P Q : Prop}

theorem ResolvesTo.imp {value result : Value} (h : ResolvesTo g value result P) (hPQ : P → Q) :
    ResolvesTo g value result Q :=
  fun room budget resolved left hrun =>
    ⟨(h room budget resolved left hrun).1, hPQ (h room budget resolved left hrun).2⟩

/-- What one more level of a run gives. -/
theorem resolvesTo_of_step {value result : Value}
    (h : ∀ room budget left resolved, g.resolve (room + 1) value budget = .ok (resolved, left) →
      resolved = result ∧ P) : ResolvesTo g value result P := by
  intro room budget resolved left hrun
  cases room with
  | zero => exact (fail_ok.mp hrun).elim
  | succ room => exact h room budget left resolved hrun

theorem resolvesTo_atom {value : Value} (harray : ∀ items, value ≠ .array items)
    (hobject : ∀ entries, value ≠ .object entries) : ResolvesTo g value value True := by
  refine resolvesTo_of_step fun room budget left resolved hrun => ?_
  cases value with
  | array items => exact (harray items rfl).elim
  | object entries => exact (hobject entries rfl).elim
  | null | bool | number | otherNumber | string =>
      obtain ⟨-, mid, -, hrun⟩ := bind_ok.mp hrun
      exact ⟨(pure_ok.mp hrun).1.symm, trivial⟩

theorem resolvesTo_string (text : Name) : ResolvesTo g (.string text) (.string text) True :=
  resolvesTo_atom (fun _ h => by cases h) fun _ h => by cases h

theorem EntriesTo.imp {entries results : List (Key × Value)} (h : EntriesTo g entries results P)
    (hPQ : P → Q) : EntriesTo g entries results Q :=
  fun room budget resolved left hrun =>
    ⟨(h room budget resolved left hrun).1, hPQ (h room budget resolved left hrun).2⟩

theorem EntriesTo.nil : EntriesTo g [] [] True := fun _ => .pure ⟨rfl, trivial⟩

theorem EntriesTo.cons {key : Key} {value result : Value} {entries results : List (Key × Value)}
    (head : ResolvesTo g value result P) (tail : EntriesTo g entries results Q) :
    EntriesTo g ((key, value) :: entries) ((key, result) :: results) (P ∧ Q) := by
  intro room budget resolved left hrun
  obtain ⟨entry, mid, rest, hentry, hrest, rfl⟩ := mapM_cons_ok.mp hrun
  obtain ⟨value, last, hvalue, hpure⟩ := bind_ok.mp hentry
  obtain ⟨rfl, rfl⟩ := pure_ok.mp hpure
  obtain ⟨rfl, hP⟩ := head room budget value last hvalue
  obtain ⟨rfl, hQ⟩ := tail room last rest left hrest
  exact ⟨rfl, hP, hQ⟩

theorem eq_map_of_forall₂ {ι β : Type} {inputs : List ι} {results : List β} {f : ι → β}
    {P : ι → Prop} (h : List.Forall₂ (fun i b => b = f i ∧ P i) inputs results) :
    results = inputs.map f ∧ ∀ i ∈ inputs, P i := by
  induction h with
  | nil => simp
  | cons head _ ih =>
      obtain ⟨rfl, hP⟩ := head
      exact ⟨by rw [List.map_cons, ih.1], List.forall_mem_cons.mpr ⟨hP, ih.2⟩⟩

/-- An object that is no reference resolves entry by entry. -/
theorem resolvesTo_object {entries results : List (Key × Value)}
    (hname : Generics.genericName entries = none) (hconst : g.boundConst entries = none)
    (h : EntriesTo g entries results P) :
    ResolvesTo g (.object entries) (.object results) P := by
  refine resolvesTo_of_step fun room budget left resolved hrun => ?_
  rw [Generics.resolve] at hrun
  obtain ⟨-, mid, -, hrun⟩ := bind_ok.mp hrun
  simp only [hname, hconst] at hrun
  obtain ⟨mapped, last, hmap, hpure⟩ := bind_ok.mp hrun
  obtain ⟨rfl, hP⟩ := h room mid mapped last hmap
  exact ⟨(pure_ok.mp hpure).1.symm, hP⟩

theorem resolvesTo_array {ι : Type} {inputs : List ι} {value result : ι → Value}
    {P : ι → Prop} (h : ∀ i ∈ inputs, ResolvesTo g (value i) (result i) (P i)) :
    ResolvesTo g (.array (inputs.map value)) (.array (inputs.map result))
      (∀ i ∈ inputs, P i) := by
  refine resolvesTo_of_step fun room budget left resolved hrun => ?_
  rw [Generics.resolve] at hrun
  obtain ⟨-, mid, -, hrun⟩ := bind_ok.mp hrun
  obtain ⟨items, last, hmap, hpure⟩ := bind_ok.mp hrun
  rw [List.mapM_map] at hmap
  have hitems := Returns.mapM (fun i hi => h i hi room) mid items last hmap
  obtain ⟨rfl, hP⟩ := eq_map_of_forall₂ hitems
  exact ⟨(pure_ok.mp hpure).1.symm, hP⟩

end

theorem lookup_of_mem_keys {β : Type} {entries : List (Name × β)} {name : Name}
    (h : name ∈ entries.map Prod.fst) : ∃ value, entries.lookup name = some value := by
  induction entries with
  | nil => cases h
  | cons entry entries ih =>
      obtain ⟨key, value⟩ := entry
      rw [List.lookup_cons]
      by_cases hkey : name = key
      · exact ⟨value, by simp [hkey]⟩
      · obtain ⟨found, hfound⟩ := ih (by simpa [hkey] using h)
        rw [beq_false_of_ne hkey]
        exact ⟨found, hfound⟩

/-- A reference to a parameter resolves to its argument. -/
theorem resolvesTo_generic (hσ : σ.Proper) (name : Name) :
    ResolvesTo (σ.toGenerics types) (toJson (.generic name)) (toJson (σ.substName name))
      (σ.substName name).Closed := by
  refine resolvesTo_of_step fun room budget left resolved hrun => ?_
  have hname : Generics.genericName [(.generic, .string name)] = some name := rfl
  rw [toJson, Generics.resolve] at hrun
  obtain ⟨-, mid, -, hrun⟩ := bind_ok.mp hrun
  simp only [hname, boundType_toGenerics, constArg_toGenerics] at hrun
  rw [Scope.substName]
  cases htype : σ.typeOf name with
  | some ty =>
      simp only [htype, Option.map_some] at hrun
      obtain ⟨-, last, -, hpure⟩ := bind_ok.mp hrun
      exact ⟨(pure_ok.mp hpure).1.symm, hσ.typeOf htype⟩
  | none =>
      simp only [htype, Option.map_none] at hrun
      cases hconst : σ.constArgs.lookup name with
      | none => simp [hconst, fail_ok] at hrun
      | some arg =>
          simp only [hconst, Option.map_some] at hrun
          obtain ⟨n, last, hn, hpure⟩ := bind_ok.mp hrun
          have hnumber := constValue_argJson (free_ok.mp hn).1
          simp only [Scope.numberOf, hconst, Option.bind_some, hnumber]
          exact ⟨(pure_ok.mp hpure).1.symm, ⟨trivial, fun child hchild => by cases hchild⟩⟩

theorem resolvesTo_const (hσ : σ.Proper) {value : Name}
    (hvalue : (constNumber value).isSome ∨ value ∈ σ.constArgs.map Prod.fst) :
    ResolvesTo (σ.toGenerics types) (argJson (.const value)) (argJson (σ.substConst value))
      (σ.substConst value).Closed := by
  cases hlookup : σ.constArgs.lookup value with
  | none =>
      have hnumber : (constNumber value).isSome := by
        refine hvalue.resolve_right fun hmem => ?_
        obtain ⟨arg, harg⟩ := lookup_of_mem_keys hmem
        rw [hlookup] at harg
        cases harg
      rw [Scope.substConst, if_pos hnumber]
      refine (resolvesTo_object rfl ?_ (.cons (resolvesTo_string _)
        (.cons (resolvesTo_string _) .nil))).imp fun _ => hnumber
      show (σ.toGenerics types).constArg value = none
      rw [constArg_toGenerics, hlookup, Option.map_none]
  | some arg =>
      obtain ⟨hclosed, hnumber⟩ := hσ.const value arg hlookup
      rw [Scope.substConst, hnumber, if_neg (by simp), hlookup, Option.getD_some]
      refine resolvesTo_of_step fun room budget left resolved hrun => ?_
      have hbound : (σ.toGenerics types).boundConst
          [(.kind, .string "const".toList), (.value, .string value)] = some (argJson arg) := by
        show (σ.toGenerics types).constArg value = some (argJson arg)
        rw [constArg_toGenerics, hlookup, Option.map_some]
      have hname : Generics.genericName
          [(.kind, .string "const".toList), (.value, .string value)] = none := rfl
      rw [argJson, Generics.resolve] at hrun
      obtain ⟨-, mid, -, hrun⟩ := bind_ok.mp hrun
      simp only [hname, hbound] at hrun
      obtain ⟨-, last, -, hpure⟩ := bind_ok.mp hrun
      exact ⟨(pure_ok.mp hpure).1.symm, hclosed⟩

theorem IdlFields.types_map {T U : Type} (f : T → U) (fields : IdlFields T) :
    (fields.map f).types = fields.types.map f := by
  cases fields with
  | none => rfl
  | named fields => simp [IdlFields.map, IdlFields.types, IdlField.map]
  | tuple items => rfl

theorem closed_defined {name : Name} {args : List (GenericArg IdlType)}
    (h : ∀ arg ∈ args, arg.Closed) : (IdlType.defined name args).Closed := by
  refine ⟨fun value hvalue => h _ hvalue, fun ty hty => ?_⟩
  obtain ⟨arg, harg, htype⟩ := List.mem_filterMap.mp hty
  have hclosed := h arg harg
  cases arg with
  | type t =>
      cases htype
      exact hclosed
  | const value => cases htype
  | missing => cases htype

theorem resolvesTo_arg (hσ : σ.Proper) {arg : GenericArg IdlType}
    (hconst : ∀ value, arg = .const value →
      (constNumber value).isSome ∨ value ∈ σ.constArgs.map Prod.fst)
    (htype : ∀ ty, arg = .type ty → ResolvesTo (σ.toGenerics types) (toJson ty)
      (toJson (subst σ ty)) (subst σ ty).Closed) :
    ResolvesTo (σ.toGenerics types) (argJson arg) (argJson (substArg σ arg))
      (substArg σ arg).Closed := by
  cases arg with
  | type ty =>
      exact (resolvesTo_object rfl rfl (.cons (resolvesTo_string _) (.cons (htype ty rfl) .nil))).imp
        fun hP => hP.2.1
  | const value => exact resolvesTo_const hσ (hconst value rfl)
  | missing =>
      exact (resolvesTo_atom (fun _ h => by cases h) fun _ h => by cases h).imp fun _ => trivial

theorem entriesTo_docs (g : Generics) (docs : Option (List Name)) :
    EntriesTo g (docsJson docs) (docsJson docs) True := by
  cases docs with
  | none => exact .nil
  | some lines =>
      exact (EntriesTo.cons (resolvesTo_array fun line _ => resolvesTo_string line) .nil).imp
        fun _ => trivial

theorem entriesTo_fields {fields : IdlFields IdlType}
    (h : ∀ ty ∈ fields.types, ResolvesTo (σ.toGenerics types) (toJson ty) (toJson (subst σ ty))
      (subst σ ty).Closed) :
    EntriesTo (σ.toGenerics types) (fieldsJson fields) (fieldsJson (fields.map (subst σ)))
      (∀ ty ∈ fields.types, (subst σ ty).Closed) := by
  cases fields with
  | none => exact EntriesTo.nil.imp fun _ ty hty => by cases hty
  | tuple items =>
      rw [fieldsJson, itemsJson_eq, IdlFields.map, fieldsJson, itemsJson_eq, List.map_map]
      exact (EntriesTo.cons (resolvesTo_array h) .nil).imp fun hP => hP.1
  | named fields =>
      rw [fieldsJson, namedJson_eq, IdlFields.map, fieldsJson, namedJson_eq, List.map_map]
      refine (EntriesTo.cons (resolvesTo_array fun field hfield => resolvesTo_object
        (by cases field.docs <;> rfl) (by cases field.docs <;> rfl)
        (.cons (resolvesTo_string field.name)
          (.cons (h field.ty (List.mem_map_of_mem hfield)) (entriesTo_docs _ field.docs)))) .nil).imp
        fun hP ty hty => ?_
      obtain ⟨field, hfield, rfl⟩ := List.mem_map.mp hty
      exact (hP.1 field hfield).2.1

/-- The value is resolved by substitution, and what is resolved is closed. -/
theorem resolvesTo_toJson (hσ : σ.Proper) {ty : IdlType}
    (h : ty.ConstsIn (σ.constArgs.map Prod.fst)) :
    ResolvesTo (σ.toGenerics types) (toJson ty) (toJson (subst σ ty)) (subst σ ty).Closed := by
  induction ty using IdlType.induction with
  | step ty ih =>
      have hbelow : ∀ child ∈ ty.children, ResolvesTo (σ.toGenerics types) (toJson child)
          (toJson (subst σ child)) (subst σ child).Closed :=
        fun child hchild => ih child hchild (h.child hchild)
      cases ty with
      | leaf name =>
          exact (resolvesTo_string name).imp fun _ => ⟨trivial, fun _ hchild => by cases hchild⟩
      | number n =>
          refine (resolvesTo_atom (fun _ h => by cases h) fun _ h => by cases h).imp fun _ => ?_
          exact ⟨trivial, fun _ hchild => by cases hchild⟩
      | generic name => exact resolvesTo_generic hσ name
      | array item len =>
          refine (resolvesTo_object rfl rfl (.cons (resolvesTo_array hbelow) .nil)).imp fun hP => ?_
          refine ⟨trivial, fun child hchild => ?_⟩
          obtain ⟨ty, hty, rfl⟩ := List.mem_map.mp (show child ∈ [item, len].map (subst σ) from hchild)
          exact hP.1 ty hty
      | vec item | option item | coption item =>
          refine (resolvesTo_object rfl rfl
            (.cons (hbelow item (List.mem_singleton.mpr rfl)) .nil)).imp fun hP => ?_
          exact ⟨trivial, List.forall_mem_singleton.mpr hP.1⟩
      | aliasOf form item =>
          have hitem := hbelow item (List.mem_singleton.mpr rfl)
          cases form <;>
            exact (resolvesTo_object rfl rfl (.cons (resolvesTo_string _) (.cons hitem .nil))).imp
              fun hP => ⟨trivial, List.forall_mem_singleton.mpr hP.2.1⟩
      | defined name args =>
          have hargs : ∀ arg ∈ args, ResolvesTo (σ.toGenerics types) (argJson arg)
              (argJson (substArg σ arg)) (substArg σ arg).Closed := by
            intro arg harg
            refine resolvesTo_arg hσ (fun value hvalue => h.here value (hvalue ▸ harg))
              fun ty hty => hbelow ty ?_
            exact List.mem_filterMap.mpr ⟨arg, harg, by rw [hty]; rfl⟩
          rw [subst, substArgs_eq]
          cases args with
          | nil =>
              refine (resolvesTo_object rfl rfl (.cons (resolvesTo_object rfl rfl
                (.cons (resolvesTo_string name) .nil)) .nil)).imp fun _ => ?_
              exact closed_defined fun arg harg => by cases harg
          | cons arg args =>
              rw [toJson, List.map_cons, toJson, argsJson_eq, argsJson_eq, List.map_map]
              refine (resolvesTo_object rfl rfl (.cons (resolvesTo_object rfl rfl
                (.cons (resolvesTo_string name) (.cons (resolvesTo_array hargs) .nil))) .nil)).imp
                fun hP => ?_
              refine closed_defined fun bound hbound => ?_
              obtain ⟨arg', harg', rfl⟩ := List.mem_map.mp
                (show bound ∈ (arg :: args).map (substArg σ) from hbound)
              exact hP.1.2.1 arg' harg'
      | struct fields =>
          rw [subst, substFields_eq]
          refine (resolvesTo_object ?_ ?_ (.cons (resolvesTo_string _)
            (entriesTo_fields hbelow))).imp fun hP => ⟨trivial, fun child hchild => ?_⟩
          · cases fields <;> rfl
          · cases fields <;> rfl
          · rw [children, IdlFields.types_map] at hchild
            obtain ⟨ty, hty, rfl⟩ := List.mem_map.mp hchild
            exact hP.2 ty hty
      | enum variants =>
          rw [subst, substVariants_eq]
          rw [toJson, toJson, variantsJson_eq, variantsJson_eq, List.map_map]
          refine (resolvesTo_object rfl rfl (.cons (resolvesTo_string _) (.cons
            (resolvesTo_array fun variant hvariant => resolvesTo_object ?_ ?_
              (.cons (resolvesTo_string variant.name) (entriesTo_fields fun ty hty =>
                hbelow ty (List.mem_flatMap.mpr ⟨variant, hvariant, hty⟩)))) .nil))).imp
            fun hP => ⟨trivial, fun child hchild => ?_⟩
          · cases variant.fields <;> rfl
          · cases variant.fields <;> rfl
          · obtain ⟨variant', hvariant', hty⟩ := List.mem_flatMap.mp hchild
            obtain ⟨variant, hvariant, rfl⟩ := List.mem_map.mp hvariant'
            rw [IdlVariant.map, IdlFields.types_map] at hty
            obtain ⟨ty, hmem, rfl⟩ := List.mem_map.mp hty
            exact (hP.2.1 variant hvariant).2 ty hmem

end Resolve

/-! ## Scopes of definitions -/

/-- No const parameter is a number or shares its name with a type parameter, and const
arguments in the body that are no numbers name const parameters. -/
structure IdlTypeDef.Proper (t : IdlTypeDef) : Prop where
  number : ∀ param ∈ t.params, param.isConst → constNumber param.name = none
  disjoint : ∀ param ∈ t.params, param.isConst → ∀ other ∈ t.params, other.isConst = false →
    param.name ≠ other.name
  body : t.body.ConstsIn ((t.params.filter GenericParam.isConst).map GenericParam.name)

theorem mem_constArgs_bind {bound : List (GenericParam × GenericArg IdlType)} {name : Name}
    {arg : GenericArg IdlType} (h : (name, arg) ∈ (Scope.bind bound).constArgs) :
    ∃ param, (param, arg) ∈ bound ∧ param.isConst ∧ param.name = name := by
  obtain ⟨⟨param, found⟩, hmem, heq⟩ := List.mem_map.mp h
  obtain ⟨hmem, hconst⟩ := List.mem_filter.mp hmem
  cases heq
  exact ⟨param, List.mem_reverse.mp hmem, hconst, rfl⟩

theorem mem_typeArgs_bind {bound : List (GenericParam × GenericArg IdlType)} {name : Name}
    {arg : GenericArg IdlType} (h : (name, arg) ∈ (Scope.bind bound).typeArgs) :
    ∃ param, (param, arg) ∈ bound ∧ param.isConst = false ∧ param.name = name := by
  obtain ⟨⟨param, found⟩, hmem, heq⟩ := List.mem_map.mp h
  obtain ⟨hmem, hconst⟩ := List.mem_filter.mp hmem
  cases heq
  exact ⟨param, List.mem_reverse.mp hmem, by simpa using hconst, rfl⟩

theorem mem_params_of_mem_bindArgs {params : List GenericParam} {args : List (GenericArg IdlType)}
    {param : GenericParam} {arg : GenericArg IdlType} (h : (param, arg) ∈ bindArgs params args) :
    param ∈ params := by
  obtain ⟨⟨param', i⟩, hmem, heq⟩ := List.mem_map.mp h
  cases heq
  exact List.mem_of_getElem? (List.mem_zipIdx_iff_getElem?.mp hmem)

/-- Closed arguments bind the parameters of a proper definition properly. -/
theorem Scope.Proper.bind {t : IdlTypeDef} (ht : t.Proper) {args : List (GenericArg IdlType)}
    (hargs : ∀ bound ∈ bindArgs t.params args, bound.2.Closed) :
    (Scope.bind (bindArgs t.params args)).Proper := by
  refine ⟨fun name arg h => ?_, fun name arg h => ?_, fun name arg h => ?_⟩
  · obtain ⟨param, hmem, hconst, rfl⟩ := mem_constArgs_bind (mem_of_lookup h)
    exact ⟨hargs _ hmem, ht.number param (mem_params_of_mem_bindArgs hmem) hconst⟩
  · obtain ⟨param, hmem, -, rfl⟩ := mem_typeArgs_bind (mem_of_lookup h)
    exact hargs _ hmem
  · obtain ⟨param, hmem, hconst, rfl⟩ := mem_constArgs_bind (mem_of_lookup h)
    by_contra hsome
    obtain ⟨other, hother⟩ := Option.ne_none_iff_exists'.mp hsome
    obtain ⟨param', hmem', hconst', hname⟩ := mem_typeArgs_bind (mem_of_lookup hother)
    exact ht.disjoint param (mem_params_of_mem_bindArgs hmem) hconst param'
      (mem_params_of_mem_bindArgs hmem') hconst' hname.symm

theorem constsIn_bind {t : IdlTypeDef} (ht : t.Proper) (args : List (GenericArg IdlType)) :
    t.body.ConstsIn ((Scope.bind (bindArgs t.params args)).constArgs.map Prod.fst) := by
  refine ht.body.imp fun ty hty => ?_
  cases ty with
  | leaf | number | generic | array | vec | option | coption | aliasOf | struct | enum => trivial
  | defined name uses =>
      refine fun value hvalue => (hty value hvalue).imp_right fun hmem => ?_
      obtain ⟨param, hparam, rfl⟩ := List.mem_map.mp hmem
      obtain ⟨hparam, hconst⟩ := List.mem_filter.mp hparam
      obtain ⟨i, hi⟩ := List.getElem?_of_mem hparam
      refine List.mem_map.mpr ⟨(param.name, args[i]?.getD .missing), ?_, rfl⟩
      refine List.mem_map.mpr ⟨(param, args[i]?.getD .missing), ?_, rfl⟩
      refine List.mem_filter.mpr ⟨List.mem_reverse.mpr ?_, hconst⟩
      exact List.mem_map.mpr ⟨(param, i), List.mem_zipIdx_iff_getElem?.mpr hi, rfl⟩

theorem bind_toGenerics (σ : Scope) (types : List IdlTypeDef)
    (bound : List (GenericParam × GenericArg IdlType)) :
    (σ.toGenerics types).bind (bound.map fun (param, arg) => (param, argJson arg)) =
      (Scope.bind bound).toGenerics types := by
  simp only [Generics.bind, Scope.bind, Scope.toGenerics, ← List.map_reverse, List.filter_map,
    List.map_map]
  rfl

theorem resolveArgs_returns {σ : Scope} {types : List IdlTypeDef} {params : List GenericParam}
    {args : List (GenericArg IdlType)}
    (h : ∀ arg ∈ args, ResolvesTo (σ.toGenerics types) (argJson arg) (argJson (substArg σ arg))
      (substArg σ arg).Closed) :
    Returns ((σ.toGenerics types).resolveArgs params (args.map argJson)) fun bound =>
      bound = (bindArgs params (args.map (substArg σ))).map
          (fun (param, arg) => (param, argJson arg)) ∧
        ∀ bound ∈ bindArgs params (args.map (substArg σ)), bound.2.Closed := by
  intro budget bound left hrun
  have hstep : ∀ entry ∈ params.zipIdx, Returns
      ((σ.toGenerics types).resolveArg (args.map argJson) entry) fun result =>
        result = (entry.1, argJson ((args.map (substArg σ))[entry.2]?.getD .missing)) ∧
          ((args.map (substArg σ))[entry.2]?.getD .missing).Closed := by
    rintro ⟨param, i⟩ -
    simp only [Generics.resolveArg, List.getElem?_map]
    cases harg : args[i]? with
    | none => exact .pure ⟨rfl, trivial⟩
    | some arg =>
        refine .bind (h arg (List.mem_of_getElem? harg) _) fun resolved hresolved => .pure ?_
        exact ⟨by rw [hresolved.1]; rfl, hresolved.2⟩
  obtain ⟨rfl, hclosed⟩ := eq_map_of_forall₂ (Returns.mapM hstep budget bound left hrun)
  refine ⟨by rw [bindArgs, List.map_map]; rfl, fun entry hentry => ?_⟩
  obtain ⟨⟨param, i⟩, hmem, rfl⟩ := List.mem_map.mp hentry
  exact hclosed (param, i) hmem

/-! ## Unbound names -/

/-- The name of a parameter occurs in the type. -/
inductive IdlType.Mentions (name : Name) : IdlType → Prop
  | here : Mentions name (.generic name)
  | child {ty child : IdlType} (hchild : child ∈ ty.children) (h : Mentions name child) :
      Mentions name ty

/-- The name of a parameter that no scope binds occurs in the type, in an argument that has a
parameter, or in the body of a type that is used. -/
inductive Unbound (types : List IdlTypeDef) (name : Name) : IdlType → Prop
  | here : Unbound types name (.generic name)
  | child {ty child : IdlType} (hty : ∀ n args, ty ≠ .defined n args) (hchild : child ∈ ty.children)
      (h : Unbound types name child) : Unbound types name ty
  | arg {n : Name} {args : List (GenericArg IdlType)} {t : IdlTypeDef} {i : Nat} {ty : IdlType}
      (hdef : genericDef types n = some t) (hi : i < t.params.length)
      (harg : args[i]? = some (.type ty)) (h : ty.Mentions name) :
      Unbound types name (.defined n args)
  | use {n : Name} {arg : GenericArg IdlType} {args : List (GenericArg IdlType)} {t : IdlTypeDef}
      (hdef : genericDef types n = some t)
      (h : Unbound types name (t.body.subst (Scope.bind (bindArgs t.params (arg :: args))))) :
      Unbound types name (.defined n (arg :: args))

theorem IdlType.Closed.not_mentions {ty : IdlType} (h : ty.Closed) (name : Name) :
    ¬ty.Mentions name := by
  intro hmentions
  induction hmentions with
  | here => exact h.here
  | child hchild _ ih => exact ih (h.child hchild)

/-- A type other than a use has an unbound name only below it, or is one itself. -/
theorem not_unbound_of_children {types : List IdlTypeDef} {ty : IdlType} {name : Name}
    (hdefined : ∀ n args, ty ≠ .defined n args) (hgeneric : ∀ n, ty ≠ .generic n)
    (h : ∀ child ∈ ty.children, ¬Unbound types name child) : ¬Unbound types name ty := by
  intro hunbound
  cases hunbound with
  | here => exact hgeneric name rfl
  | child _ hchild hbelow => exact h _ hchild hbelow
  | arg => exact hdefined _ _ rfl
  | use => exact hdefined _ _ rfl

/-! ## Runs of the conversion -/

section Convert

variable (types : List IdlTypeDef)

/-- The expansion of the type, for all fuel from some on. -/
structure Expanded (room : Nat) (ty expanded : IdlType) : Prop where
  free : expanded.GenericFree
  expand : ∀ more, room ≤ more → expand types more ty = some expanded
  bound : ∀ name, ¬Unbound types name ty

/-- Every run in the scope is afforded by the conversion of the expansion. -/
def Converts (σ : Scope) (room : Nat) (ty : IdlType) : Prop :=
  ∀ budget node left, typeNodeAt room (σ.toGenerics types) (toJson ty) budget = .ok (node, left) →
    ∃ expanded, Expanded types room (subst σ ty) expanded ∧ ∀ more, room ≤ more →
      Affords (typeNodeAt more (Scope.empty.toGenerics types) (toJson expanded)) budget node left

variable {types} {σ : Scope} {room : Nat}

/-- One level of the conversion, after it is paid for. -/
theorem converts_succ {ty : IdlType}
    (h : ∀ budget node left,
      typeNodeStep (typeNodeAt room) (σ.toGenerics types) (toJson ty) budget = .ok (node, left) →
      ∃ expanded, Expanded types (room + 1) (subst σ ty) expanded ∧ ∀ more, room ≤ more →
        Affords (typeNodeStep (typeNodeAt more) (Scope.empty.toGenerics types) (toJson expanded))
          budget node left) : Converts types σ (room + 1) ty := by
  intro budget node left hrun
  obtain ⟨⟨⟩, mid, hspend, hstep⟩ := bind_ok.mp hrun
  obtain ⟨expanded, hexpanded, hafford⟩ := h mid node left hstep
  refine ⟨expanded, hexpanded, fun more hmore => ?_⟩
  obtain ⟨more, rfl⟩ : ∃ n, more = n + 1 := ⟨more - 1, by omega⟩
  rw [spend_ok.mp hspend]
  exact Affords.spend.bind (hafford more (by omega))

theorem IdlType.GenericFree.of_children {ty : IdlType} (hdefined : ∀ n args, ty ≠ .defined n args)
    (hgeneric : ∀ n, ty ≠ .generic n) (h : ∀ child ∈ ty.children, child.GenericFree) :
    ty.GenericFree := by
  refine ⟨?_, h⟩
  cases ty with
  | generic name => exact hgeneric name rfl
  | defined name args => exact (hdefined name args rfl).elim
  | leaf | number | array | vec | option | coption | aliasOf | struct | enum => trivial

/-- A type with one type below it. -/
theorem converts_unary {wrap : IdlType → IdlType} {f : TypeNode → TypeNode} {item : IdlType}
    (hstep : ∀ recurse g item, typeNodeStep recurse g (toJson (wrap item)) =
      recurse g (toJson item) >>= fun node => pure (f node))
    (h : Converts types σ room item) (hsubst : subst σ (wrap item) = wrap (subst σ item))
    (hexpand : ∀ fuel item, expand types (fuel + 1) (wrap item) = (expand types fuel item).map wrap)
    (hchildren : ∀ item, (wrap item).children = [item])
    (hdefined : ∀ item n args, wrap item ≠ .defined n args)
    (hgeneric : ∀ item n, wrap item ≠ .generic n) : Converts types σ (room + 1) (wrap item) := by
  refine converts_succ fun budget node left hrun => ?_
  rw [hstep] at hrun
  obtain ⟨inner, mid, hinner, hpure⟩ := bind_ok.mp hrun
  obtain ⟨rfl, rfl⟩ := pure_ok.mp hpure
  obtain ⟨expanded, hexpanded, hafford⟩ := h budget inner mid hinner
  refine ⟨wrap expanded, ⟨?_, fun more hmore => ?_, fun name => ?_⟩, fun more hmore => ?_⟩
  · refine GenericFree.of_children (hdefined expanded) (hgeneric expanded) ?_
    rw [hchildren]
    exact List.forall_mem_singleton.mpr hexpanded.free
  · obtain ⟨more, rfl⟩ : ∃ n, more = n + 1 := ⟨more - 1, by omega⟩
    rw [hsubst, hexpand, hexpanded.expand more (by omega), Option.map_some]
  · rw [hsubst]
    refine not_unbound_of_children (hdefined _) (hgeneric _) ?_
    rw [hchildren]
    exact List.forall_mem_singleton.mpr (hexpanded.bound name)
  · rw [hstep]
    exact (hafford more hmore).bind .pure

/-- An array of a length that is a number, or a const parameter bound to one. -/
theorem writtenLen_generic (g : Generics) (name : Name) :
    writtenLen g (toJson (.generic name)) = match g.constArg name with
      | some arg => constValue arg
      | none => .error (.invalidArrayLength (toJson (.generic name)).text) := rfl

theorem arrayLen_ok (hσ : σ.Proper) {len : IdlType} {n : Nat}
    (h : arrayLen (σ.toGenerics types) (toJson len) = .ok n) :
    subst σ len = .number n ∧
      arrayLen (Scope.empty.toGenerics types) (toJson (.number n)) = .ok n := by
  rw [arrayLen, Fallible.bind_eq_ok] at h
  obtain ⟨m, hm, hlimit⟩ := h
  have hn : m = n ∧ ¬n > maxArrayLen := by
    split at hlimit
    · cases hlimit
    · next hle =>
        cases hlimit
        exact ⟨rfl, hle⟩
  obtain ⟨rfl, hle⟩ := hn
  refine ⟨?_, if_neg hle⟩
  cases len with
  | number k =>
      cases hm
      rfl
  | generic name =>
      rw [writtenLen_generic, constArg_toGenerics] at hm
      cases hlookup : σ.constArgs.lookup name with
      | none =>
          rw [hlookup] at hm
          cases hm
      | some arg =>
          rw [hlookup] at hm
          have htype : σ.typeOf name = none := by
            rw [Scope.typeOf, hσ.disjoint name arg hlookup, Option.bind_none]
          rw [subst, Scope.substName, htype, Scope.numberOf, hlookup, Option.bind_some,
            constValue_argJson hm]
  | aliasOf form target => cases form <;> cases hm
  | defined name args => cases args <;> cases hm
  | struct fields => cases fields <;> cases hm
  | leaf | array | vec | option | coption | enum => cases hm

theorem converts_array (hσ : σ.Proper) {item len : IdlType} (h : Converts types σ room item) :
    Converts types σ (room + 1) (.array item len) := by
  refine converts_succ fun budget node left hrun => ?_
  obtain ⟨inner, mid, hinner, hrun⟩ := bind_ok.mp hrun
  obtain ⟨count, last, hcount, hpure⟩ := bind_ok.mp hrun
  obtain ⟨hlen, rfl⟩ := free_ok.mp hcount
  obtain ⟨rfl, rfl⟩ := pure_ok.mp hpure
  obtain ⟨hsubst, hlen⟩ := arrayLen_ok hσ hlen
  obtain ⟨expanded, hexpanded, hafford⟩ := h budget inner mid hinner
  have hnumber : (IdlType.number count).GenericFree := ⟨trivial, fun _ hchild => by cases hchild⟩
  refine ⟨.array expanded (.number count), ⟨?_, fun more hmore => ?_, fun name => ?_⟩,
    fun more hmore => ?_⟩
  · refine GenericFree.of_children (fun _ _ h => by cases h) (fun _ h => by cases h) ?_
    exact List.forall_mem_cons.mpr ⟨hexpanded.free, List.forall_mem_singleton.mpr hnumber⟩
  · obtain ⟨more, rfl⟩ : ∃ n, more = n + 1 := ⟨more - 1, by omega⟩
    rw [subst, hsubst, expand, hexpanded.expand more (by omega), Option.map_some]
  · rw [subst, hsubst]
    refine not_unbound_of_children (fun _ _ h => by cases h) (fun _ h => by cases h) ?_
    refine List.forall_mem_cons.mpr ⟨hexpanded.bound name, List.forall_mem_singleton.mpr ?_⟩
    exact not_unbound_of_children (fun _ _ h => by cases h) (fun _ h => by cases h)
      fun _ hchild => by cases hchild
  · exact (hafford more hmore).bind ((Affords.free hlen).bind .pure)

/-! ### Fields -/

/-- The fields of a struct or variant, by their grammar. -/
def convertFields (recurse : Generics → Value → Convert TypeNode) (g : Generics) :
    IdlFields IdlType → Convert (VariantPayload TypeNode)
  | .none | .named [] | .tuple [] => pure .empty
  | .named (field :: fields) => do
      let fields ← (field :: fields).mapM fun field => structField recurse g (fieldJson field)
      pure (.struct fields)
  | .tuple (item :: items) => do
      let items ← (item :: items).mapM fun item => recurse g (toJson item)
      pure (.tuple items)

theorem isNamedField_toJson (ty : IdlType) : isNamedField (toJson ty) = false := by
  cases ty with
  | aliasOf form target => cases form <;> rfl
  | defined name args => cases args <;> rfl
  | struct fields => cases fields <;> rfl
  | leaf | number | array | vec | option | coption | generic | enum => rfl

theorem variantType_variantJson (recurse : Generics → Value → Convert TypeNode) (g : Generics)
    (variant : IdlVariant IdlType) :
    variantType recurse g (variantJson variant) = (do
      let name ← free (ident variant.name)
      let payload ← convertFields recurse g variant.fields
      pure ⟨name, none, payload⟩) := by
  obtain ⟨name, fields⟩ := variant
  refine bind_congr fun ident => ?_
  cases fields with
  | none => rfl
  | named fields =>
      cases fields with
      | nil => rfl
      | cons field fields =>
          have hfields : fieldList (variantJson ⟨name, .named (field :: fields)⟩) =
              .ok ((field :: fields).map fieldJson) := by
            rw [← namedJson_eq]
            rfl
          rw [hfields, free_ok_bind, convertFields, bind_assoc]
          show (if isNamedField (fieldJson field) then
            structType recurse g ((field :: fields).map fieldJson) >>= _ else _) = _
          rw [if_pos (show isNamedField (fieldJson field) = true from rfl), structType, List.mapM_map]
          rfl
  | tuple items =>
      cases items with
      | nil => rfl
      | cons item items =>
          have hfields : fieldList (variantJson ⟨name, .tuple (item :: items)⟩) =
              .ok ((item :: items).map toJson) := by
            rw [← itemsJson_eq]
            rfl
          rw [hfields, free_ok_bind, convertFields, bind_assoc]
          show (if isNamedField (toJson item) then _ else
            tupleType recurse g ((item :: items).map toJson) >>= _) = _
          rw [if_neg (by simp [isNamedField_toJson]), tupleType, List.mapM_map]
          rfl

/-- A struct with these fields. -/
def structOf : VariantPayload TypeNode → TypeNode
  | .empty | .wrapped _ => .struct []
  | .struct fields => .struct fields
  | .tuple items => .tuple items

theorem typeNodeStep_struct (recurse : Generics → Value → Convert TypeNode) (g : Generics)
    (fields : IdlFields IdlType) :
    typeNodeStep recurse g (toJson (.struct fields)) = (do
      let payload ← convertFields recurse g fields
      pure (structOf payload)) := by
  cases fields with
  | none => rfl
  | named fields =>
      cases fields with
      | nil => rfl
      | cons field fields =>
          have hfields : fieldList (toJson (.struct (.named (field :: fields)))) =
              .ok ((field :: fields).map fieldJson) := by
            rw [← namedJson_eq]
            rfl
          have hall : ((field :: fields).map fieldJson).all isNamedField = true := by
            rw [List.all_map]
            exact List.all_eq_true.mpr fun _ _ => rfl
          show structOrTuple recurse g (toJson (.struct (.named (field :: fields)))) = _
          rw [structOrTuple, hfields, free_ok_bind, if_pos hall, structType, List.mapM_map,
            convertFields, bind_assoc]
          rfl
  | tuple items =>
      cases items with
      | nil => rfl
      | cons item items =>
          have hfields : fieldList (toJson (.struct (.tuple (item :: items)))) =
              .ok ((item :: items).map toJson) := by
            rw [← itemsJson_eq]
            rfl
          have hany : ((item :: items).map toJson).any isNamedField = false := by
            rw [List.any_map, List.any_eq_false]
            exact fun ty _ => by simp [isNamedField_toJson]
          have hall : ¬((item :: items).map toJson).all isNamedField = true := by
            simp [isNamedField_toJson]
          show structOrTuple recurse g (toJson (.struct (.tuple (item :: items)))) = _
          rw [structOrTuple, hfields, free_ok_bind, if_neg hall, hany, tupleType, List.mapM_map,
            convertFields, bind_assoc]
          rfl

/-- The expansion of fields: all types are expanded. -/
structure FieldsExpanded (types : List IdlTypeDef) (room : Nat)
    (fields expanded : IdlFields IdlType) : Prop where
  free : ∀ ty ∈ expanded.types, ty.GenericFree
  expand : ∀ more, room ≤ more → fields.expand (expand types more) = some expanded
  bound : ∀ ty ∈ fields.types, ∀ name, ¬Unbound types name ty

theorem forall₂_right {α β : Type} {R : α → β → Prop} {P : β → Prop} {as : List α} {bs : List β}
    (h : List.Forall₂ R as bs) (hP : ∀ a b, R a b → P b) : ∀ b ∈ bs, P b := by
  induction h with
  | nil => simp
  | cons head _ ih => exact List.forall_mem_cons.mpr ⟨hP _ _ head, ih⟩

theorem forall₂_left {α β : Type} {R : α → β → Prop} {P : α → Prop} {as : List α} {bs : List β}
    (h : List.Forall₂ R as bs) (hP : ∀ a b, R a b → P a) : ∀ a ∈ as, P a := by
  induction h with
  | nil => simp
  | cons head _ ih => exact List.forall_mem_cons.mpr ⟨hP _ _ head, ih⟩

theorem structField_fieldJson (recurse : Generics → Value → Convert TypeNode) (g : Generics)
    (field : IdlField IdlType) :
    structField recurse g (fieldJson field) = (do
      free (checkDocs ((docsJson field.docs).lookup .docs))
      let name ← free (ident field.name)
      let type ← recurse g (toJson field.ty)
      pure ⟨name, none, type, none⟩) :=
  rfl

/-- A named field converts as its type does. -/
theorem field_converts {field : IdlField IdlType} (h : Converts types σ room field.ty)
    {budget left : Nat} {node : StructFieldTypeNode}
    (hrun : structField (typeNodeAt room) (σ.toGenerics types) (fieldJson field) budget =
      .ok (node, left)) :
    ∃ expanded : IdlField IdlType, (expanded.name = field.name ∧ expanded.docs = field.docs ∧
        Expanded types room (subst σ field.ty) expanded.ty) ∧ ∀ more, room ≤ more →
      Affords (structField (typeNodeAt more) (Scope.empty.toGenerics types) (fieldJson expanded))
        budget node left := by
  rw [structField_fieldJson] at hrun
  obtain ⟨⟨⟩, mid, hdocs, hrun⟩ := bind_ok.mp hrun
  obtain ⟨name, mid', hname, hrun⟩ := bind_ok.mp hrun
  obtain ⟨type, last, htype, hpure⟩ := bind_ok.mp hrun
  obtain ⟨hchecked, rfl⟩ := free_ok.mp hdocs
  obtain ⟨hident, rfl⟩ := free_ok.mp hname
  obtain ⟨rfl, rfl⟩ := pure_ok.mp hpure
  obtain ⟨expanded, hexpanded, hafford⟩ := h _ _ _ htype
  refine ⟨⟨field.name, field.docs, expanded⟩, ⟨rfl, rfl, hexpanded⟩, fun more hmore => ?_⟩
  rw [structField_fieldJson]
  exact (Affords.free hchecked).bind ((Affords.free hident).bind ((hafford more hmore).bind .pure))

theorem fields_convert {fields : IdlFields IdlType}
    (h : ∀ ty ∈ fields.types, Converts types σ room ty) {budget left : Nat}
    {payload : VariantPayload TypeNode}
    (hrun : convertFields (typeNodeAt room) (σ.toGenerics types) fields budget =
      .ok (payload, left)) :
    ∃ expanded, FieldsExpanded types room (fields.map (subst σ)) expanded ∧ ∀ more, room ≤ more →
      Affords (convertFields (typeNodeAt more) (Scope.empty.toGenerics types) expanded)
        budget payload left := by
  have hempty : ∀ fields : IdlFields IdlType, fields.types = [] →
      (∀ more, fields.expand (expand types more) = some fields) →
      FieldsExpanded types room fields fields := by
    intro fields hnil hexpand
    exact ⟨by simp [hnil], fun more _ => hexpand more, by simp [hnil]⟩
  cases fields with
  | none =>
      obtain ⟨rfl, rfl⟩ := pure_ok.mp hrun
      exact ⟨.none, hempty .none rfl fun _ => rfl, fun _ _ => .pure⟩
  | named fields =>
      cases fields with
      | nil =>
          obtain ⟨rfl, rfl⟩ := pure_ok.mp hrun
          exact ⟨.named [], hempty (.named []) rfl fun _ => rfl, fun _ _ => .pure⟩
      | cons field fields =>
          obtain ⟨nodes, mid, hnodes, hpure⟩ := bind_ok.mp hrun
          obtain ⟨rfl, rfl⟩ := pure_ok.mp hpure
          obtain ⟨expanded, hexpanded, hafford⟩ := mapM_affords
            (fun field hfield _ _ _ hrun =>
              field_converts (h field.ty (List.mem_map_of_mem hfield)) hrun) hnodes
          refine ⟨.named expanded, ⟨?_, fun more hmore => ?_, ?_⟩, fun more hmore => ?_⟩
          · intro ty hty
            obtain ⟨field', hfield', rfl⟩ := List.mem_map.mp hty
            exact forall₂_right hexpanded (fun _ _ hfield => hfield.2.2.free) field' hfield'
          · have hfields : ((field :: fields).map (IdlField.map (subst σ))).mapM
                (IdlField.expand (expand types more)) = some expanded := by
              rw [List.mapM_map]
              refine Fallible.mapM_eq_some.mpr (hexpanded.imp fun a b hab => ?_)
              obtain ⟨name, docs, ty⟩ := b
              obtain ⟨rfl, rfl, hty⟩ := hab
              simp [IdlField.expand, IdlField.map, hty.expand more hmore]
            exact congrArg (Option.map IdlFields.named) hfields
          · rw [IdlFields.types_map]
            intro ty hty name
            obtain ⟨ty, hmem, rfl⟩ := List.mem_map.mp hty
            obtain ⟨field', hfield', rfl⟩ := List.mem_map.mp hmem
            exact forall₂_left hexpanded (fun _ _ hfield => hfield.2.2.bound name) field' hfield'
          · obtain ⟨_, _, -, hrest⟩ := List.forall₂_cons_left_iff.mp hexpanded
            obtain ⟨-, rfl⟩ := hrest
            exact (hafford more hmore).bind .pure
  | tuple items =>
      cases items with
      | nil =>
          obtain ⟨rfl, rfl⟩ := pure_ok.mp hrun
          exact ⟨.tuple [], hempty (.tuple []) rfl fun _ => rfl, fun _ _ => .pure⟩
      | cons item items =>
          obtain ⟨nodes, mid, hnodes, hpure⟩ := bind_ok.mp hrun
          obtain ⟨rfl, rfl⟩ := pure_ok.mp hpure
          obtain ⟨expanded, hexpanded, hafford⟩ := mapM_affords
            (fun item hitem => h item hitem) hnodes
          refine ⟨.tuple expanded, ⟨?_, fun more hmore => ?_, ?_⟩, fun more hmore => ?_⟩
          · exact forall₂_right hexpanded fun _ _ hitem => hitem.free
          · have hitems : ((item :: items).map (subst σ)).mapM (expand types more) =
                some expanded := by
              rw [List.mapM_map]
              exact Fallible.mapM_eq_some.mpr (hexpanded.imp fun _ _ hitem => hitem.expand more hmore)
            exact congrArg (Option.map IdlFields.tuple) hitems
          · rw [IdlFields.types_map]
            intro ty hty name
            obtain ⟨ty, hmem, rfl⟩ := List.mem_map.mp hty
            exact forall₂_left hexpanded (fun _ _ hitem => hitem.bound name) ty hmem
          · obtain ⟨_, _, -, hrest⟩ := List.forall₂_cons_left_iff.mp hexpanded
            obtain ⟨-, rfl⟩ := hrest
            exact (hafford more hmore).bind .pure

theorem converts_struct {fields : IdlFields IdlType}
    (h : ∀ ty ∈ fields.types, Converts types σ room ty) :
    Converts types σ (room + 1) (.struct fields) := by
  refine converts_succ fun budget node left hrun => ?_
  rw [typeNodeStep_struct] at hrun
  obtain ⟨payload, mid, hpayload, hpure⟩ := bind_ok.mp hrun
  obtain ⟨rfl, rfl⟩ := pure_ok.mp hpure
  obtain ⟨expanded, hexpanded, hafford⟩ := fields_convert h hpayload
  refine ⟨.struct expanded, ⟨?_, fun more hmore => ?_, fun name => ?_⟩, fun more hmore => ?_⟩
  · exact GenericFree.of_children (fun _ _ h => by cases h) (fun _ h => by cases h) hexpanded.free
  · obtain ⟨more, rfl⟩ : ∃ n, more = n + 1 := ⟨more - 1, by omega⟩
    rw [subst, substFields_eq, expand, hexpanded.expand more (by omega), Option.map_some]
  · rw [subst, substFields_eq]
    exact not_unbound_of_children (fun _ _ h => by cases h) (fun _ h => by cases h)
      fun ty hty => hexpanded.bound ty hty name
  · rw [typeNodeStep_struct]
    exact (hafford more hmore).bind .pure

theorem variant_converts {variant : IdlVariant IdlType}
    (h : ∀ ty ∈ variant.fields.types, Converts types σ room ty) {budget left : Nat}
    {node : EnumVariantTypeNode}
    (hrun : variantType (typeNodeAt room) (σ.toGenerics types) (variantJson variant) budget =
      .ok (node, left)) :
    ∃ expanded : IdlVariant IdlType, (expanded.name = variant.name ∧
        FieldsExpanded types room (variant.fields.map (subst σ)) expanded.fields) ∧
      ∀ more, room ≤ more → Affords (variantType (typeNodeAt more)
        (Scope.empty.toGenerics types) (variantJson expanded)) budget node left := by
  rw [variantType_variantJson] at hrun
  obtain ⟨name, mid, hname, hrun⟩ := bind_ok.mp hrun
  obtain ⟨payload, last, hpayload, hpure⟩ := bind_ok.mp hrun
  obtain ⟨hident, rfl⟩ := free_ok.mp hname
  obtain ⟨rfl, rfl⟩ := pure_ok.mp hpure
  obtain ⟨expanded, hexpanded, hafford⟩ := fields_convert h hpayload
  refine ⟨⟨variant.name, expanded⟩, ⟨rfl, hexpanded⟩, fun more hmore => ?_⟩
  rw [variantType_variantJson]
  exact (Affords.free hident).bind ((hafford more hmore).bind .pure)

theorem typeNodeStep_enum (recurse : Generics → Value → Convert TypeNode) (g : Generics)
    (variants : List (IdlVariant IdlType)) :
    typeNodeStep recurse g (toJson (.enum variants)) = (do
      let variants ← variants.mapM fun variant => variantType recurse g (variantJson variant)
      pure (.enum variants (.value (.littleEndian .u8)))) := by
  show (variantsJson variants).mapM (variantType recurse g) >>= _ = _
  rw [variantsJson_eq, List.mapM_map]
  rfl

theorem converts_enum {variants : List (IdlVariant IdlType)}
    (h : ∀ variant ∈ variants, ∀ ty ∈ variant.fields.types, Converts types σ room ty) :
    Converts types σ (room + 1) (.enum variants) := by
  refine converts_succ fun budget node left hrun => ?_
  rw [typeNodeStep_enum] at hrun
  obtain ⟨nodes, mid, hnodes, hpure⟩ := bind_ok.mp hrun
  obtain ⟨rfl, rfl⟩ := pure_ok.mp hpure
  obtain ⟨expanded, hexpanded, hafford⟩ := mapM_affords
    (fun variant hvariant _ _ _ hrun => variant_converts (h variant hvariant) hrun) hnodes
  refine ⟨.enum expanded, ⟨?_, fun more hmore => ?_, fun name => ?_⟩, fun more hmore => ?_⟩
  · refine GenericFree.of_children (fun _ _ h => by cases h) (fun _ h => by cases h) ?_
    intro ty hty
    obtain ⟨variant, hvariant, hty⟩ := List.mem_flatMap.mp hty
    exact forall₂_right hexpanded (fun _ _ hab => hab.2.free) variant hvariant ty hty
  · obtain ⟨more, rfl⟩ : ∃ n, more = n + 1 := ⟨more - 1, by omega⟩
    have hvariants : (variants.map (IdlVariant.map (subst σ))).mapM
        (IdlVariant.expand (expand types more)) = some expanded := by
      rw [List.mapM_map]
      refine Fallible.mapM_eq_some.mpr (hexpanded.imp fun a b hab => ?_)
      obtain ⟨name, fields⟩ := b
      obtain ⟨rfl, hfields⟩ := hab
      simp [IdlVariant.expand, IdlVariant.map, hfields.expand more (by omega)]
    rw [subst, substVariants_eq, expand, hvariants, Option.map_some]
  · rw [subst, substVariants_eq]
    refine not_unbound_of_children (fun _ _ h => by cases h) (fun _ h => by cases h) ?_
    intro ty hty
    obtain ⟨variant', hvariant', hty⟩ := List.mem_flatMap.mp hty
    obtain ⟨variant, hvariant, rfl⟩ := List.mem_map.mp hvariant'
    exact forall₂_left hexpanded (fun _ _ hab => hab.2.bound) variant hvariant ty hty name
  · rw [typeNodeStep_enum]
    exact (hafford more hmore).bind .pure

/-! ### Uses -/

theorem genericDef_toGenerics (name : Name) :
    (σ.toGenerics types).genericDef name = (genericDef types name).map IdlTypeDef.toTypeDef := by
  rw [Generics.genericDef, genericDef, Scope.toGenerics, ← List.map_reverse, List.find?_map]
  rfl

/-- A parameter converts as its argument does. -/
theorem typeNodeStep_generic (recurse : Generics → Value → Convert TypeNode) (g : Generics)
    (name : Name) : typeNodeStep recurse g (toJson (.generic name)) =
      match g.boundType name with
      | some arg => recurse g arg
      | none => fail (.genericArgMissing (Value.string name).text) := rfl

theorem converts_generic (hσ : σ.Proper) {name : Name}
    (h : ∀ ty, ty.ConstsIn (σ.constArgs.map Prod.fst) → Converts types σ room ty) :
    Converts types σ (room + 1) (.generic name) := by
  intro budget node left hrun
  obtain ⟨⟨⟩, mid, hspend, hstep⟩ := bind_ok.mp hrun
  rw [typeNodeStep_generic, boundType_toGenerics] at hstep
  cases htype : σ.typeOf name with
  | none =>
      rw [htype] at hstep
      exact (fail_ok.mp hstep).elim
  | some ty =>
      rw [htype] at hstep
      have hclosed : ty.Closed := hσ.typeOf htype
      have hconsts : ty.ConstsIn (σ.constArgs.map Prod.fst) := by
        refine hclosed.imp fun ty hty => ?_
        cases ty with
        | defined name args => exact fun value hvalue => Or.inl (hty value hvalue)
        | leaf | number | generic | array | vec | option | coption | aliasOf | struct | enum =>
            trivial
      obtain ⟨expanded, hexpanded, hafford⟩ := h ty hconsts mid node left hstep
      rw [subst_eq_self (hclosed.untouched σ)] at hexpanded
      have hsubst : subst σ (.generic name) = ty := by rw [subst, Scope.substName, htype]
      rw [hsubst]
      refine ⟨expanded, ⟨hexpanded.free, fun more hmore => hexpanded.expand more (by omega),
        hexpanded.bound⟩, fun more hmore => ?_⟩
      have hbudget : mid ≤ budget := by
        rw [spend_ok.mp hspend]
        omega
      exact (hafford more (by omega)).weaken hbudget le_rfl

/-- A link to a plain type stays as it is. -/
theorem converts_link {name : Name} : Converts types σ (room + 1) (.defined name []) := by
  refine converts_succ fun budget node left hrun => ?_
  have hstep : ∀ σ recurse, typeNodeStep recurse (Scope.toGenerics σ types)
      (toJson (.defined name [])) =
        if ((Scope.empty.toGenerics types).genericDef name).isSome then
          fail (Error.genericArgsMissing name)
        else if !(Scope.empty.toGenerics types).isPlain name then fail (Error.undefinedType name)
        else free (ident name) >>= fun name => pure (.link name) := fun _ _ => rfl
  rw [hstep] at hrun
  refine ⟨.defined name [], ⟨⟨rfl, fun _ hchild => by cases hchild⟩, fun more hmore => ?_,
    fun unbound hunbound => ?_⟩, fun more hmore => ?_⟩
  · obtain ⟨more, rfl⟩ : ∃ n, more = n + 1 := ⟨more - 1, by omega⟩
    rfl
  · cases hunbound with
    | child hty => exact hty name [] rfl
    | arg _ _ harg => cases harg
  · rw [hstep]
    split at hrun
    · exact (fail_ok.mp hrun).elim
    · next hgeneric =>
        split at hrun
        · exact (fail_ok.mp hrun).elim
        · next hplain =>
            obtain ⟨linked, mid, hname, hpure⟩ := bind_ok.mp hrun
            obtain ⟨hident, rfl⟩ := free_ok.mp hname
            obtain ⟨rfl, rfl⟩ := pure_ok.mp hpure
            rw [if_neg hgeneric, if_neg hplain]
            exact (Affords.free hident).bind .pure

theorem genericDef_mem {name : Name} {t : IdlTypeDef} (h : genericDef types name = some t) :
    t ∈ types ∧ t.isGeneric := by
  have hmem := List.mem_reverse.mp (List.mem_of_find?_eq_some h)
  have hfound := List.find?_some h
  simp only [Bool.and_eq_true] at hfound
  exact ⟨hmem, hfound.1⟩

/-- A use converts as the body does in the scope of its arguments. -/
theorem typeNodeStep_use (recurse : Generics → Value → Convert TypeNode) (g : Generics)
    (name : Name) (arg : GenericArg IdlType) (args : List (GenericArg IdlType)) :
    typeNodeStep recurse g (toJson (.defined name (arg :: args))) =
      match g.genericDef name with
      | none => fail (Error.genericTypeMissing name)
      | some t =>
          if t.isEnum then fail (Error.genericEnum name)
          else (do
            let bound ← g.resolveArgs t.params (argJson arg :: argsJson args)
            recurse (g.bind bound) (t.ty.getD emptyStruct)) := rfl

theorem converts_use (hdefs : ∀ t ∈ types, t.isGeneric → t.Proper) (hσ : σ.Proper) {name : Name}
    {arg : GenericArg IdlType} {args : List (GenericArg IdlType)}
    (hconsts : (IdlType.defined name (arg :: args)).ConstsIn (σ.constArgs.map Prod.fst))
    (h : ∀ (σ : Scope) ty, σ.Proper → ty.ConstsIn (σ.constArgs.map Prod.fst) →
      Converts types σ room ty) : Converts types σ (room + 1) (.defined name (arg :: args)) := by
  intro budget node left hrun
  obtain ⟨⟨⟩, mid, hspend, hstep⟩ := bind_ok.mp hrun
  rw [typeNodeStep_use, genericDef_toGenerics] at hstep
  cases hdef : genericDef types name with
  | none =>
      rw [hdef] at hstep
      exact (fail_ok.mp hstep).elim
  | some t =>
      simp only [hdef, Option.map_some] at hstep
      split at hstep
      · exact (fail_ok.mp hstep).elim
      · obtain ⟨bound, last, hbound, hbody⟩ := bind_ok.mp hstep
        obtain ⟨hmem, hgeneric⟩ := genericDef_mem hdef
        have ht := hdefs t hmem hgeneric
        have hargs : ∀ use ∈ arg :: args, ResolvesTo (σ.toGenerics types) (argJson use)
            (argJson (substArg σ use)) (substArg σ use).Closed := by
          intro use huse
          refine resolvesTo_arg hσ (fun value hvalue => hconsts.here value (hvalue ▸ huse))
            fun ty hty => resolvesTo_toJson hσ (hconsts.child ?_)
          exact List.mem_filterMap.mpr ⟨use, huse, by rw [hty]; rfl⟩
        rw [argsJson_eq, ← List.map_cons] at hbound
        obtain ⟨rfl, hclosed⟩ := resolveArgs_returns hargs mid bound last hbound
        have htype : t.toTypeDef.ty.getD emptyStruct = toJson t.body := by
          rw [IdlTypeDef.toTypeDef, IdlTypeDef.body]
          cases t.ty <;> rfl
        rw [bind_toGenerics, htype] at hbody
        obtain ⟨expanded, hexpanded, hafford⟩ := h _ _ (.bind ht hclosed)
          (constsIn_bind ht _) last node left hbody
        have hsubst : subst σ (.defined name (arg :: args)) =
            .defined name ((arg :: args).map (substArg σ)) := by rw [subst, substArgs_eq]
        rw [hsubst]
        refine ⟨expanded, ⟨hexpanded.free, fun more hmore => ?_, fun unbound hunbound => ?_⟩,
          fun more hmore => ?_⟩
        · obtain ⟨more, rfl⟩ : ∃ n, more = n + 1 := ⟨more - 1, by omega⟩
          rw [List.map_cons, expand, hdef]
          exact hexpanded.expand more (by omega)
        · cases hunbound with
          | child hty => exact hty _ _ rfl
          | @arg _ _ t' i ty hdef' hi harg hmentions =>
              rw [hdef] at hdef'
              cases hdef'
              refine (hclosed (t.params[i], .type ty) ?_).not_mentions unbound hmentions
              refine List.mem_map.mpr ⟨(t.params[i], i), ?_, by simp only [harg, Option.getD_some]⟩
              exact List.mem_zipIdx_iff_getElem?.mpr (List.getElem?_eq_getElem hi)
          | use hdef' hbelow =>
              rw [hdef] at hdef'
              cases hdef'
              exact hexpanded.bound unbound hbelow
        · have hspent := (σ.toGenerics types).resolveArgs_frugal _ _ mid _ last hbound
          have hbudget := spend_ok.mp hspend
          exact (hafford more (by omega)).weaken (by omega) le_rfl

/-- A type written as a string. -/
theorem typeNodeStep_leaf (recurse : Generics → Value → Convert TypeNode) (g : Generics)
    (name : Name) : typeNodeStep recurse g (toJson (.leaf name)) =
      match leafTypeNode name with
      | some node => pure node
      | none => fail (unrecognized (.string name)) := rfl

theorem converts_leaf {name : Name} : Converts types σ (room + 1) (.leaf name) := by
  refine converts_succ fun budget node left hrun => ?_
  rw [typeNodeStep_leaf] at hrun
  refine ⟨.leaf name, ⟨⟨trivial, fun _ hchild => by cases hchild⟩, fun more hmore => ?_,
    fun _ => ?_⟩, fun more _ => ?_⟩
  · obtain ⟨more, rfl⟩ : ∃ n, more = n + 1 := ⟨more - 1, by omega⟩
    rfl
  · exact not_unbound_of_children (fun _ _ h => by cases h) (fun _ h => by cases h)
      fun _ hchild => by cases hchild
  · rw [typeNodeStep_leaf]
    cases hleaf : leafTypeNode name with
    | none =>
        rw [hleaf] at hrun
        exact (fail_ok.mp hrun).elim
    | some leaf =>
        rw [hleaf] at hrun
        obtain ⟨rfl, rfl⟩ := pure_ok.mp hrun
        exact .pure

/-- Every run of the conversion in a proper scope is one of the conversion of the expansion. -/
theorem typeNodeAt_converts (hdefs : ∀ t ∈ types, t.isGeneric → t.Proper) (room : Nat) (σ : Scope)
    (ty : IdlType) (hσ : σ.Proper) (hty : ty.ConstsIn (σ.constArgs.map Prod.fst)) :
    Converts types σ room ty := by
  induction room generalizing σ ty with
  | zero => exact fun _ _ _ hrun => (fail_ok.mp hrun).elim
  | succ room ih =>
      have hbelow : ∀ child ∈ ty.children, Converts types σ room child :=
        fun child hchild => ih σ child hσ (hty.child hchild)
      cases ty with
      | leaf name => exact converts_leaf
      | number n => exact converts_succ fun _ _ _ hrun => by cases hrun
      | array item len => exact converts_array hσ (hbelow item List.mem_cons_self)
      | vec item =>
          exact converts_unary (fun _ _ _ => rfl) (hbelow item (List.mem_singleton.mpr rfl)) rfl
            (fun _ _ => rfl) (fun _ => rfl) (fun _ _ _ h => by cases h) fun _ _ h => by cases h
      | option item =>
          exact converts_unary (fun _ _ _ => rfl) (hbelow item (List.mem_singleton.mpr rfl)) rfl
            (fun _ _ => rfl) (fun _ => rfl) (fun _ _ _ h => by cases h) fun _ _ h => by cases h
      | coption item =>
          exact converts_unary (fun _ _ _ => rfl) (hbelow item (List.mem_singleton.mpr rfl)) rfl
            (fun _ _ => rfl) (fun _ => rfl) (fun _ _ _ h => by cases h) fun _ _ h => by cases h
      | aliasOf form item =>
          refine converts_unary (f := id) (fun recurse g item => ?_)
            (hbelow item (List.mem_singleton.mpr rfl)) rfl (fun _ _ => rfl) (fun _ => rfl)
            (fun _ _ _ h => by cases h) fun _ _ h => by cases h
          cases form <;> exact (bind_pure _).symm
      | defined name args =>
          cases args with
          | nil => exact converts_link
          | cons arg args => exact converts_use hdefs hσ hty ih
      | generic name => exact converts_generic hσ fun ty => ih σ ty hσ
      | struct fields => exact converts_struct hbelow
      | enum variants =>
          exact converts_enum fun variant hvariant ty hmem =>
            hbelow ty (List.mem_flatMap.mpr ⟨variant, hvariant, hmem⟩)

end Convert

/-- For all definitions and every use whose const arguments are numbers or name const
parameters in scope: a conversion that succeeds is the conversion of the expanded type, in
which no parameter and no use of a generic type is left, and no unbound name is in the type,
in an argument that has a parameter, or in the body of a type that is used. -/
theorem typeNode_expands_generics (types : List IdlTypeDef)
    (hdefs : ∀ t ∈ types, t.isGeneric → t.Proper) (ty : IdlType) (hty : ty.ConstsIn [])
    (budget left : Nat) (node : TypeNode)
    (h : typeNode (.extract (types.map IdlTypeDef.toTypeDef)) ty.toJson budget =
      .ok (node, left)) :
    (∃ expanded, expanded.GenericFree ∧
      (∀ fuel, nestingLimit ≤ fuel → expand types fuel ty = some expanded) ∧
      ∃ spare, left ≤ spare ∧ typeNode (.extract (types.map IdlTypeDef.toTypeDef))
        expanded.toJson budget = .ok (node, spare)) ∧
    ∀ name, ¬Unbound types name ty := by
  obtain ⟨expanded, hexpanded, hafford⟩ :=
    typeNodeAt_converts hdefs nestingLimit .empty ty .empty hty budget node left h
  rw [subst_eq_self (untouched_empty ty)] at hexpanded
  exact ⟨⟨expanded, hexpanded.free, hexpanded.expand, hafford nestingLimit le_rfl budget le_rfl⟩,
    hexpanded.bound⟩

/-- A generic struct with one field. -/
def genericStruct (name : Name) (params : List GenericParam) (field : IdlType) : IdlTypeDef where
  name := name
  generics := some params
  serialization := none
  repr := none
  ty := some (.struct (.named [⟨"f".toList, none, field⟩]))

def typeParam (name : Name) : GenericParam := ⟨"type".toList, name⟩

def constParam (name : Name) : GenericParam := ⟨"const".toList, name⟩

/-- What a chain of such structs converts to. -/
def structNode (field : TypeNode) : TypeNode := .struct [⟨"f".toList, none, field, none⟩]

def u16Array (count : Nat) : TypeNode := .array (.number (.littleEndian .u16)) (.fixed count)

/-- A const parameter passed on as a type, to a parameter of the same name. -/
def passedOn : List IdlTypeDef :=
  [genericStruct "Inner".toList [constParam "N".toList]
      (.array (.leaf "u16".toList) (.generic "N".toList)),
    genericStruct "Outer".toList [constParam "N".toList]
      (.defined "Inner".toList [.type (.generic "N".toList)])]

theorem passedOn_proper : ∀ t ∈ passedOn, t.isGeneric → t.Proper := by
  have hatom : ∀ (names : List Name) (ty : IdlType), (∀ n args, ty ≠ .defined n args) →
      ty.children = [] → ty.ConstsIn names := by
    intro names ty hty hchildren
    refine ⟨?_, by simp [hchildren]⟩
    cases ty with
    | defined name args => exact (hty name args rfl).elim
    | leaf | number | generic | array | vec | option | coption | aliasOf | struct | enum => trivial
  have hnumber : constNumber "N".toList = none := by decide +kernel
  have hparam : ∀ param ∈ [constParam "N".toList], param.isConst → constNumber param.name = none :=
    List.forall_mem_singleton.mpr fun _ => hnumber
  have hdisjoint : ∀ param ∈ [constParam "N".toList], param.isConst →
      ∀ other ∈ [constParam "N".toList], other.isConst = false → param.name ≠ other.name :=
    fun _ _ _ => List.forall_mem_singleton.mpr fun h => by cases h
  refine List.forall_mem_cons.mpr ⟨fun _ => ⟨hparam, hdisjoint, ?_⟩,
    List.forall_mem_singleton.mpr fun _ => ⟨hparam, hdisjoint, ?_⟩⟩
  · refine ⟨trivial, List.forall_mem_singleton.mpr ⟨trivial, List.forall_mem_cons.mpr
      ⟨hatom _ _ (fun _ _ h => by cases h) rfl, List.forall_mem_singleton.mpr ?_⟩⟩⟩
    exact hatom _ _ (fun _ _ h => by cases h) rfl
  · refine ⟨trivial, List.forall_mem_singleton.mpr ⟨fun value hvalue => ?_,
      List.forall_mem_singleton.mpr (hatom _ _ (fun _ _ h => by cases h) rfl)⟩⟩
    cases List.mem_singleton.mp hvalue

theorem passedOn_expands :
    ∃ expanded, expanded.GenericFree ∧
      (∀ fuel, nestingLimit ≤ fuel → expand passedOn fuel
        (.defined "Outer".toList [.const "3".toList]) = some expanded) ∧
      ∃ spare, 88 ≤ spare ∧ typeNode (.extract (passedOn.map IdlTypeDef.toTypeDef))
        expanded.toJson 100 = .ok (structNode (structNode (u16Array 3)), spare) := by
  refine (typeNode_expands_generics passedOn passedOn_proper
    (.defined "Outer".toList [.const "3".toList]) ?_ 100 88 _ rfl).1
  refine ⟨fun value hvalue => ?_, fun _ hchild => by cases hchild⟩
  cases List.mem_singleton.mp hvalue
  exact Or.inl (by decide +kernel)

/-- A const parameter whose name is a number. -/
def numberNamed : List IdlTypeDef :=
  [genericStruct "Inner".toList [constParam "N".toList]
      (.array (.leaf "u16".toList) (.generic "N".toList)),
    genericStruct "Outer".toList [constParam "5".toList]
      (.defined "Inner".toList [.const "5".toList])]

/-- A const and a type parameter of one name. -/
def sharedName : List IdlTypeDef :=
  [genericStruct "Id".toList [typeParam "T".toList] (.generic "T".toList),
    genericStruct "Direct".toList [typeParam "N".toList, constParam "N".toList]
      (.array (.leaf "u16".toList) (.generic "N".toList)),
    genericStruct "Passed".toList [typeParam "N".toList, constParam "N".toList]
      (.defined "Id".toList [.type (.array (.leaf "u16".toList) (.generic "N".toList))])]

def one : List IdlTypeDef := [genericStruct "One".toList [typeParam "T".toList] (.generic "T".toList)]

/-- The const argument `5` takes the argument of a parameter named `5`; a length reads one of
two parameters of one name directly and the other one in an argument; an unbound name in an
argument without a parameter is accepted. -/
theorem generics_captured_or_unbound :
    (typeNode (.extract (numberNamed.map IdlTypeDef.toTypeDef))
        (IdlType.defined "Outer".toList [.const "7".toList]).toJson 100 =
        .ok (structNode (structNode (u16Array 7)), 87) ∧
      (expand numberNamed nestingLimit (.defined "Outer".toList [.const "7".toList])).map
          (fun expanded => typeNode (.extract (numberNamed.map IdlTypeDef.toTypeDef))
            expanded.toJson 100) =
        some (.ok (structNode (structNode (u16Array 5)), 96)) ∧
      structNode (structNode (u16Array 7)) ≠ structNode (structNode (u16Array 5))) ∧
    (typeNode (.extract (sharedName.map IdlTypeDef.toTypeDef))
        (IdlType.defined "Direct".toList [.type (.number 7), .const "5".toList]).toJson 100 =
        .ok (structNode (u16Array 5), 90) ∧
      typeNode (.extract (sharedName.map IdlTypeDef.toTypeDef))
        (IdlType.defined "Passed".toList [.type (.number 7), .const "5".toList]).toJson 100 =
        .ok (structNode (structNode (u16Array 7)), 80)) ∧
    ((IdlType.defined "One".toList
        [.type (.leaf "u16".toList), .type (.generic "Z".toList)]).Mentions "Z".toList ∧
      typeNode (.extract (one.map IdlTypeDef.toTypeDef))
        (IdlType.defined "One".toList
          [.type (.leaf "u16".toList), .type (.generic "Z".toList)]).toJson 100 =
        .ok (structNode (.number (.littleEndian .u16)), 93)) := by
  refine ⟨⟨rfl, rfl, fun h => ?_⟩, ⟨rfl, rfl⟩, ?_, rfl⟩
  · simp [structNode, u16Array] at h
  · exact .child (List.mem_cons_of_mem _ (List.mem_singleton.mpr rfl)) .here

end Shipstern.Anchor
