import Shipstern.Anchor.Renderable
import Shipstern.Lib.Chains

/-!
# The alias check is exact

What the converter writes the walker visits as a whole, so the links that `collect_links`
finds in an alias are all links in it. The remembered lengths are those of the longest chains,
whatever the order in which the names are asked for; a name fails exactly when a chain from it
is longer than the nesting limit, as it is where a cycle is reached.
-/

namespace Shipstern.Anchor

open Codama Budgeted Chains

/-! ## What the converter writes -/

/-- The type itself or one anywhere in it. -/
inductive Occurs (sub : TypeNode) : TypeNode → Prop
  | here : Occurs sub sub
  | inside {ty child : TypeNode} (mem : child ∈ ty.children) (rest : Occurs sub child) :
      Occurs sub ty

/-- A kind of type that the converter writes. -/
def WrittenKind : TypeNode → Prop
  | .hiddenSuffix _ _ | .map _ _ _ | .set _ _ | .unsupported _ => False
  | .enum variants _ => ∀ variant ∈ variants, ∀ types, variant.payload ≠ .wrapped types
  | .link name => ∃ raw, ident raw = .ok name
  | _ => True

def Written (ty : TypeNode) : Prop := ∀ sub, Occurs sub ty → WrittenKind sub

theorem written_iff {ty : TypeNode} :
    Written ty ↔ WrittenKind ty ∧ ∀ child ∈ ty.children, Written child := by
  constructor
  · intro h
    exact ⟨h ty .here, fun child hchild sub hsub => h sub (.inside hchild hsub)⟩
  · rintro ⟨hkind, hchildren⟩ sub hsub
    cases hsub with
    | here => exact hkind
    | inside hmem hrest => exact hchildren _ hmem sub hrest

theorem WrittenKind.walked_eq {ty : TypeNode} (h : WrittenKind ty) : walked ty = ty.children := by
  cases ty with
  | enum variants size =>
      rw [walked, TypeNode.children]
      refine List.flatMap_congr fun variant hvariant => ?_
      cases hpayload : variant.payload with
      | struct fields => rfl
      | tuple items => rfl
      | empty => rfl
      | wrapped types => exact absurd hpayload (h variant hvariant types)
  | hiddenSuffix | map | set => exact h.elim
  | boolean | publicKey | number | string | bytes | fixedSize | sizePrefix | hiddenPrefix
  | struct | tuple | array | option | link | unsupported => rfl

theorem Written.mem_visited {sub ty : TypeNode} (h : Written ty) :
    sub ∈ visited ty ↔ Occurs sub ty := by
  induction ty using TypeNode.induction with
  | step ty ih =>
      obtain ⟨hkind, hchildren⟩ := written_iff.mp h
      rw [visited_eq, List.mem_cons, List.mem_flatMap, hkind.walked_eq]
      constructor
      · rintro (rfl | ⟨child, hchild, hsub⟩)
        · exact .here
        · exact .inside hchild ((ih child hchild (hchildren child hchild)).mp hsub)
      · intro hsub
        cases hsub with
        | here => exact .inl rfl
        | inside hmem hrest => exact .inr ⟨_, hmem, (ih _ hmem (hchildren _ hmem)).mpr hrest⟩

theorem Written.mem_collectLinks {name : Name} {ty : TypeNode} (h : Written ty) :
    name ∈ collectLinks ty ↔ Occurs (.link name) ty := by
  rw [← h.mem_visited, collectLinks, List.mem_filterMap]
  constructor
  · rintro ⟨sub, hsub, hlink⟩
    cases sub with
    | link other =>
        cases hlink
        exact hsub
    | _ => cases hlink
  · intro hsub
    exact ⟨.link name, hsub, rfl⟩

theorem written_of_leaf {ty : TypeNode} (hkind : WrittenKind ty) (hnone : ty.children = []) :
    Written ty :=
  written_iff.mpr ⟨hkind, by simp [hnone]⟩

section Conversion

variable {recurse : Generics → Value → Convert TypeNode} {g : Generics}

theorem leafTypeNode_written {leaf : Name} {node : TypeNode} (h : leafTypeNode leaf = some node) :
    Written node := by
  have hsized : ∀ type, WrittenKind type → type.children = [] → Written (sizePrefixed type) := by
    intro type hkind hnone
    refine written_iff.mpr ⟨trivial, fun child hchild => ?_⟩
    cases List.mem_singleton.mp hchild
    exact written_of_leaf hkind hnone
  have hnumber : ∀ format, Written (.number (.littleEndian format)) :=
    fun format => written_of_leaf trivial rfl
  have hleaf : ∀ entry ∈ leafTypes, Written entry.2 := by
    simp only [leafTypes, List.forall_mem_cons]
    exact ⟨written_of_leaf trivial rfl, written_of_leaf trivial rfl, hsized _ trivial rfl,
      hsized _ trivial rfl, hnumber _, hnumber _, hnumber _, hnumber _, hnumber _, hnumber _,
      hnumber _, hnumber _, hnumber _, hnumber _, hnumber _, hnumber _, hnumber _, by simp⟩
  exact hleaf _ (mem_of_lookup h)

theorem structType_written (hrecurse : ∀ g ty, Returns (recurse g ty) Written)
    (fields : List Value) :
    Returns (structType recurse g fields) fun fields => ∀ f ∈ fields, Written f.type := by
  refine .mapM_mem fun field _ => ?_
  rw [structField]
  split
  · exact .after fun _ => .after fun name => (hrecurse g _).bind fun type htype => .pure htype
  · exact .fail

theorem tupleType_written (hrecurse : ∀ g ty, Returns (recurse g ty) Written)
    (items : List Value) :
    Returns (tupleType recurse g items) fun items => ∀ item ∈ items, Written item :=
  .mapM_mem fun item _ => hrecurse g item

theorem written_struct {fields : List StructFieldTypeNode} (h : ∀ f ∈ fields, Written f.type) :
    Written (.struct fields) := by
  refine written_iff.mpr ⟨trivial, fun child hchild => ?_⟩
  obtain ⟨field, hfield, rfl⟩ := List.mem_map.mp hchild
  exact h field hfield

theorem written_wrapper {ty item : TypeNode} (hkind : WrittenKind ty) (hchild : ty.children = [item])
    (h : Written item) : Written ty := by
  refine written_iff.mpr ⟨hkind, fun child hmem => ?_⟩
  rw [hchild] at hmem
  cases List.mem_singleton.mp hmem
  exact h

/-- The payload of a variant is written in place. -/
theorem variantType_written (hrecurse : ∀ g ty, Returns (recurse g ty) Written) (variant : Value) :
    Returns (variantType recurse g variant) fun variant =>
      (∀ types, variant.payload ≠ .wrapped types) ∧ ∀ ty ∈ variant.payload.types, Written ty := by
  rw [variantType]
  split
  · exact .fail
  · refine .after fun name => .after fun fields => ?_
    split
    · exact .pure ⟨nofun, by simp [VariantPayload.types]⟩
    · split
      · refine (structType_written hrecurse _).bind fun fields hfields => .pure ⟨nofun, ?_⟩
        intro ty hty
        obtain ⟨field, hfield, rfl⟩ := List.mem_map.mp hty
        exact hfields field hfield
      · exact (tupleType_written hrecurse _).bind fun items hitems => .pure ⟨nofun, hitems⟩

theorem enumType_written (hrecurse : ∀ g ty, Returns (recurse g ty) Written) (variants : Value) :
    Returns (enumType recurse g variants) Written := by
  rw [enumType]
  split
  · exact .fail
  · refine Returns.bind (.mapM_mem fun variant _ => variantType_written hrecurse variant)
      fun variants hvariants => .pure (written_iff.mpr ⟨?_, ?_⟩)
    · exact fun variant hvariant => (hvariants variant hvariant).1
    · intro child hchild
      obtain ⟨variant, hvariant, hmem⟩ := List.mem_flatMap.mp hchild
      exact (hvariants variant hvariant).2 child hmem

theorem definedType_written (hrecurse : ∀ g ty, Returns (recurse g ty) Written) (defined : Value) :
    Returns (definedType recurse g defined) Written := by
  have hlink : ∀ name : Name, Returns
      (if (g.genericDef name).isSome then fail (.genericArgsMissing name)
        else if !g.isPlain name then fail (.undefinedType name)
        else do
          let name ← free (ident name)
          pure (.link name) : Convert TypeNode) Written := by
    intro name
    split
    · exact .fail
    · split
      · exact .fail
      · exact Returns.bind (.free fun name hname => hname) fun name hname =>
          .pure (written_of_leaf ⟨_, hname⟩ rfl)
  rw [definedType]
  split
  · exact .fail
  · next name hname =>
    split
    · exact hlink name
    · exact hlink name
    · split
      · exact .fail
      · split
        · exact .fail
        · exact .after fun bound => hrecurse _ _

theorem structOrTuple_written (hrecurse : ∀ g ty, Returns (recurse g ty) Written) (ty : Value) :
    Returns (structOrTuple recurse g ty) Written := by
  rw [structOrTuple]
  refine .after fun fields => ?_
  split
  · exact (structType_written hrecurse fields).bind fun fields hfields =>
      .pure (written_struct hfields)
  · split
    · exact (tupleType_written hrecurse fields).bind fun items hitems =>
        .pure (written_iff.mpr ⟨trivial, hitems⟩)
    · exact .fail

theorem option_written (hrecurse : ∀ g ty, Returns (recurse g ty) Written) (item : Value)
    (isCoption : Bool) : Returns (option recurse g item isCoption) Written :=
  (hrecurse g item).bind fun _ hitem => .pure (written_wrapper trivial rfl hitem)

theorem typeNodeStep_written (hrecurse : ∀ g ty, Returns (recurse g ty) Written) (ty : Value) :
    Returns (typeNodeStep recurse g ty) Written := by
  cases ty with
  | null | bool | number | otherNumber | array => exact .fail
  | string leaf =>
      rw [typeNodeStep]
      split
      · next h => exact .pure (leafTypeNode_written h)
      · exact .fail
  | object obj =>
      simp only [typeNodeStep]
      split
      · exact (hrecurse g _).bind fun item hitem => .after fun count =>
          .pure (written_wrapper trivial rfl hitem)
      · split
        · exact (hrecurse g _).bind fun item hitem => .pure (written_wrapper trivial rfl hitem)
        · split
          · exact definedType_written hrecurse _
          · split
            · split
              · exact hrecurse g _
              · exact .fail
            · split
              · exact enumType_written hrecurse _
              · split
                · exact hrecurse g _
                · split
                  · exact option_written hrecurse _ _
                  · split
                    · exact option_written hrecurse _ _
                    · split
                      · exact structOrTuple_written hrecurse _
                      · exact .fail

theorem typeNodeAt_written (room : Nat) (g : Generics) (ty : Value) :
    Returns (typeNodeAt room g ty) Written := by
  induction room generalizing g ty with
  | zero => exact .fail
  | succ room ih => exact .after fun _ => typeNodeStep_written ih ty

/-- Defined types as the converter writes them, with their names in the IDL. -/
abbrev ConvertedTypes : List Name → List DefinedTypeNode → Prop :=
  List.Forall₂ fun raw ty => ident raw = .ok ty.name ∧ Written ty.type

theorem definedTypeNodes_converted (g : Generics) (unclaimed : List TypeDef) :
    Returns (unclaimed.mapM (definedTypeNode g)) (ConvertedTypes (unclaimed.map (·.name))) := by
  have hmap : Returns (unclaimed.mapM (definedTypeNode g))
      (List.Forall₂ (fun def' ty => ident def'.name = .ok ty.name ∧ Written ty.type) unclaimed) :=
    .mapM fun ty _ => Returns.bind (.free fun name hname => hname) fun name hname =>
      (typeNodeAt_written nestingLimit g _).bind fun type htype => .pure ⟨hname, htype⟩
  intro budget types left hrun
  exact List.forall₂_map_left_iff.mpr (hmap budget types left hrun)

end Conversion

/-! ## Chains -/

/-- An alias, or a tuple of one type, and a type that is linked anywhere in it. -/
def AliasLink (defs : Defs) (name linked : Name) : Prop :=
  ∃ body, aliasBody defs name = some body ∧ Occurs (.link linked) body

/-- From the names no cycle of aliases can be reached, and no chain is longer than the
nesting limit. -/
structure AliasesBounded (defs : Defs) (names : List Name) : Prop where
  acyclic : ∀ name ∈ names, ∀ other, Relation.ReflTransGen (AliasLink defs) name other →
    ¬ Leads (AliasLink defs) other other
  short : ∀ name ∈ names, ∀ n other, Walk (AliasLink defs) n name other → n ≤ nestingLimit

def WrittenDefs (defs : Defs) : Prop := ∀ entry ∈ defs, Written entry.2

theorem aliasBody_written {defs : Defs} (hdefs : WrittenDefs defs) {name : Name} {body : TypeNode}
    (h : aliasBody defs name = some body) : Written body := by
  rw [aliasBody] at h
  cases hfound : defs.lookup name with
  | none => simp [hfound] at h
  | some definition =>
      have hwritten : Written definition := hdefs _ (mem_of_lookup hfound)
      rw [hfound] at h
      split at h
      · next item heq =>
          cases heq
          cases h
          exact (written_iff.mp hwritten).2 _ List.mem_cons_self
      · cases h
      · cases h
      · cases h
      · cases h
      · next heq =>
          cases heq
          cases h
          exact hwritten

/-- Every remembered length is that of the longest chain. -/
def KnownLongest (defs : Defs) (known : Depths) : Prop :=
  ∀ entry ∈ known, IsLongest (AliasLink defs) entry.1 entry.2

theorem knownLongest_nil (defs : Defs) : KnownLongest defs [] := fun _ hentry => by cases hentry

/-- What a call with `room` levels left returns: the length of the longest chain, or an error
when a chain needs more levels. -/
def MeasuresChains (defs : Defs) (room : Nat)
    (depth : Name → Depths → Except Error (Nat × Depths)) : Prop :=
  ∀ name known, KnownLongest defs known →
    (∃ n known', depth name known = .ok (n, known') ∧ IsLongest (AliasLink defs) name n ∧
      n < room ∧ KnownLongest defs known') ∨
    depth name known = .error .recursionLimit ∧ ∃ other, Walk (AliasLink defs) room name other

theorem longestChain_spec {defs : Defs} {room : Nat}
    {depth : Name → Depths → Except Error (Nat × Depths)} (hdepth : MeasuresChains defs room depth)
    {done links : List Name} {longest : Nat} {known : Depths} (hknown : KnownLongest defs known)
    (hlongest : IsLongestInto (AliasLink defs) done longest) (hroom : longest ≤ room) :
    (∃ n known', longestChain depth longest links known = .ok (n, known') ∧
      IsLongestInto (AliasLink defs) (done ++ links) n ∧ n ≤ room ∧ KnownLongest defs known') ∨
    longestChain depth longest links known = .error .recursionLimit ∧
      ∃ link ∈ links, ∃ other, Walk (AliasLink defs) room link other := by
  induction links generalizing done longest known with
  | nil => exact .inl ⟨longest, known, rfl, by simpa using hlongest, hroom, hknown⟩
  | cons link links ih =>
      rw [longestChain]
      obtain ⟨n, known', hok, hn, hlt, hknown'⟩ | ⟨herror, hwalk⟩ := hdepth link known hknown
      · rw [hok]
        obtain ⟨n', known'', hrest, hn', hle, hknown''⟩ | ⟨hrest, link', hmem, hwalk⟩ :=
          ih hknown' (hlongest.concat hn) (show max longest (n + 1) ≤ room by omega)
        · exact .inl ⟨n', known'', hrest, by simpa using hn', hle, hknown''⟩
        · exact .inr ⟨hrest, link', List.mem_cons_of_mem _ hmem, hwalk⟩
      · rw [herror]
        exact .inr ⟨rfl, link, List.mem_cons_self, hwalk⟩

theorem aliasDepth_spec {defs : Defs} (hdefs : WrittenDefs defs) (room : Nat) :
    MeasuresChains defs room (aliasDepth defs room) := by
  induction room with
  | zero => exact fun name known _ => .inr ⟨rfl, name, .refl name⟩
  | succ room ih =>
      intro name known hknown
      rw [aliasDepth]
      cases hfound : known.lookup name with
      | some longest =>
          have hlongest : IsLongest (AliasLink defs) name longest :=
            hknown _ (mem_of_lookup hfound)
          simp only
          split
          · next hlong =>
              obtain ⟨other, hwalk⟩ := hlongest.attained
              exact .inr ⟨rfl, hwalk.take (Nat.succ_le_of_lt hlong)⟩
          · next hshort =>
              exact .inl ⟨longest, known, rfl, hlongest, by omega, hknown⟩
      | none =>
          simp only
          cases hbody : aliasBody defs name with
          | none =>
              have htargets : ∀ b, AliasLink defs name b ↔ b ∈ ([] : List Name) := by
                simp [AliasLink, hbody]
              exact .inl ⟨0, known, rfl, IsLongestInto.nil.isLongest htargets, Nat.succ_pos room,
                hknown⟩
          | some body =>
              have hwritten := aliasBody_written hdefs hbody
              have htargets : ∀ b, AliasLink defs name b ↔ b ∈ collectLinks body := by
                intro b
                rw [hwritten.mem_collectLinks, AliasLink]
                constructor
                · rintro ⟨body', hbody', hoccurs⟩
                  rw [hbody] at hbody'
                  cases hbody'
                  exact hoccurs
                · exact fun hoccurs => ⟨body, hbody, hoccurs⟩
              obtain ⟨n, known', hok, hn, hle, hknown'⟩ | ⟨herror, link, hmem, other, hwalk⟩ :=
                @longestChain_spec _ _ _ ih _ (collectLinks body) _ _ hknown .nil
                  (Nat.zero_le room)
              · have hlongest := IsLongestInto.isLongest hn htargets
                simp only [hok]
                refine .inl ⟨n, (name, n) :: known', rfl, hlongest, by omega, ?_⟩
                rintro entry (_ | ⟨_, hmem⟩)
                · exact hlongest
                · exact hknown' entry hmem
              · simp only [herror]
                exact .inr ⟨rfl, other, .link ((htargets link).mpr hmem) hwalk⟩

/-! ## The calls for all types -/

section Calls

variable {defs : Defs} {names : List Name} {chains : Depths}

theorem AliasesBounded.of_short
    (h : ∀ name ∈ names, ∀ n other, Walk (AliasLink defs) n name other → n ≤ nestingLimit) :
    AliasesBounded defs names where
  acyclic := fun name hname _ hreach => not_cycle_of_bounded (h name hname) hreach
  short := h

theorem aliasesBounded_cons {name : Name} :
    AliasesBounded defs (name :: names) ↔
      (∀ n other, Walk (AliasLink defs) n name other → n ≤ nestingLimit) ∧
        AliasesBounded defs names := by
  constructor
  · intro h
    exact ⟨h.short name List.mem_cons_self,
      .of_short fun other hother => h.short other (List.mem_cons_of_mem _ hother)⟩
  · rintro ⟨hname, hnames⟩
    refine .of_short ?_
    rintro other (_ | ⟨_, hother⟩)
    · exact hname
    · exact hnames.short other hother

/-- One call: the name passes when no chain from it is too long. -/
theorem aliasDepth_call (hdefs : WrittenDefs defs) (hchains : KnownLongest defs chains)
    (name : Name) :
    (∃ n chains', aliasDepth defs (nestingLimit + 1) name chains = .ok (n, chains') ∧
      KnownLongest defs chains' ∧
      ∀ n other, Walk (AliasLink defs) n name other → n ≤ nestingLimit) ∨
    aliasDepth defs (nestingLimit + 1) name chains = .error .recursionLimit ∧
      ¬ ∀ n other, Walk (AliasLink defs) n name other → n ≤ nestingLimit := by
  obtain ⟨n, chains', hok, hn, hlt, hchains'⟩ | ⟨herror, other, hwalk⟩ :=
    aliasDepth_spec hdefs (nestingLimit + 1) name chains hchains
  · refine .inl ⟨n, chains', hok, hchains', fun m other hwalk => ?_⟩
    have := hn.bounded m other hwalk
    omega
  · refine .inr ⟨herror, fun hshort => ?_⟩
    have := hshort _ other hwalk
    omega

theorem aliasChecks_spec (hdefs : WrittenDefs defs) (names : List Name)
    (hchains : KnownLongest defs chains) :
    (aliasChecks defs names chains).isOk = true ↔ AliasesBounded defs names := by
  induction names generalizing chains with
  | nil => exact ⟨fun _ => .of_short (by simp), fun _ => rfl⟩
  | cons name names ih =>
      rw [aliasesBounded_cons, aliasChecks, List.foldlM_cons]
      obtain ⟨n, chains', hok, hchains', hshort⟩ | ⟨herror, hlong⟩ :=
        aliasDepth_call hdefs hchains name
      · rw [hok]
        exact ⟨fun hrest => ⟨hshort, (ih hchains').mp hrest⟩, fun h => (ih hchains').mpr h.2⟩
      · rw [herror]
        exact ⟨nofun, fun h => absurd h.1 hlong⟩

/-! ### In the check of all types -/

theorem checkOne_error {known : Sizes} {ty : TypeNode} {e : Error}
    (h : checkOne defs known ty = .error e) : e ≠ .recursionLimit := by
  rw [checkOne] at h
  rintro rfl
  generalize fixedSizeOfType defs (nestingLimit + 1) [] ty known = sized at h
  obtain ⟨size, known'⟩ := sized
  have hshape : checkShape ty size = .error .recursionLimit := by
    cases hshape : checkShape ty size with
    | ok => simp [hshape, bind, Except.bind, pure, Except.pure] at h
    | error e =>
        simp only [hshape, bind, Except.bind] at h
        cases h
        rfl
  rw [checkShape.eq_def] at hshape
  split at hshape
  · cases hshape
  · cases hshape
  · rw [checkFixedSize] at hshape
    split at hshape
    · cases hshape
    · cases hshape

theorem foldlM_error {α β : Type} {f : β → α → Except Error β} {e : Error}
    (hf : ∀ b a, f b a ≠ .error e) (items : List α) (b : β) : items.foldlM f b ≠ .error e := by
  induction items generalizing b with
  | nil => exact nofun
  | cons item items ih =>
      rw [List.foldlM_cons]
      cases hitem : f b item with
      | ok b' => exact ih b'
      | error e' =>
          rintro hrun
          cases hrun
          exact hf b item hitem

theorem checkNode_error (known : Sizes) (ty : TypeNode) :
    checkNode defs known ty ≠ .error .recursionLimit :=
  foldlM_error (fun _ _ h => checkOne_error h rfl) (visited ty) known

theorem checkDefined_error (known : Sizes) (ty : DefinedTypeNode) :
    checkDefined defs known ty ≠ .error .recursionLimit := by
  rw [checkDefined]
  split
  · exact foldlM_error checkNode_error _ known
  · exact checkNode_error known _

/-- The check of the types passes only where all chains are bounded, and reports a recursion
limit only where they are not. -/
theorem checkTypes_chains (hdefs : WrittenDefs defs) (types : List (Name × DefinedTypeNode))
    (known : Sizes) (hchains : KnownLongest defs chains) :
    ((checkTypes defs types known chains).isOk = true →
      AliasesBounded defs (types.map (·.2.name))) ∧
    ∀ raw, checkTypes defs types known chains = .error (.at .type raw .recursionLimit) →
      ¬ AliasesBounded defs (types.map (·.2.name)) := by
  induction types generalizing known chains with
  | nil => exact ⟨fun _ => .of_short (by simp), nofun⟩
  | cons entry types ih =>
      obtain ⟨raw, ty⟩ := entry
      rw [List.map_cons, aliasesBounded_cons, checkTypes]
      cases hdefined : checkDefined defs known ty with
      | error e =>
          refine ⟨nofun, fun raw' hrun => ?_⟩
          cases hrun
          exact absurd hdefined (checkDefined_error known ty)
      | ok known' =>
          obtain ⟨n, chains', hok, hchains', hshort⟩ | ⟨herror, hlong⟩ :=
            aliasDepth_call hdefs hchains ty.name
          · simp only [hok]
            obtain ⟨hpassed, hfailed⟩ := ih known' hchains'
            exact ⟨fun hrest => ⟨hshort, hpassed hrest⟩,
              fun raw' hrun h => hfailed raw' hrun h.2⟩
          · simp only [herror]
            exact ⟨nofun, fun _ _ h => hlong h.1⟩

end Calls

/-! ## Order -/

theorem defsOf_written {types : List DefinedTypeNode} (h : ∀ ty ∈ types, Written ty.type) :
    WrittenDefs (defsOf types) := by
  intro entry hentry
  obtain ⟨ty, hty, rfl⟩ := List.mem_map.mp (List.mem_reverse.mp hentry)
  exact h ty hty

theorem aliasesBounded_perm {types types' : List DefinedTypeNode} (h : types.Perm types')
    (hnames : (types.map (·.name)).Nodup) :
    AliasesBounded (defsOf types) (types.map (·.name)) ↔
      AliasesBounded (defsOf types') (types'.map (·.name)) := by
  have hlinks : AliasLink (defsOf types) = AliasLink (defsOf types') := by
    funext name linked
    rw [AliasLink, AliasLink, aliasBody, aliasBody, lookup_defsOf_perm h hnames]
  have hmem : ∀ name, name ∈ types.map (·.name) ↔ name ∈ types'.map (·.name) :=
    fun name => (h.map _).mem_iff
  constructor
  · intro hbounded
    exact .of_short fun name hname => hlinks ▸ hbounded.short name ((hmem name).mpr hname)
  · intro hbounded
    refine .of_short fun name hname => ?_
    rw [hlinks]
    exact hbounded.short name ((hmem name).mp hname)

end Shipstern.Anchor
