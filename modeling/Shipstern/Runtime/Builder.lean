import Shipstern.Lib.Fallible
import Shipstern.Lib.OrderedMap
import Shipstern.Runtime.InstructionPipeline

/-!
# Building a runtime: collisions and the published filters

`try_build_with` collects the pipelines of each kind in a map by parser id and refuses two
of one kind with the same id. The filters published for the source come from all six kinds
in one map, in which the last entry of an id wins. The result here says for which sets of
pipelines every one of them finds its own prefilter in that map.
-/

open Std
open Shipstern.Core

namespace Shipstern.Runtime

open OrderedMap

inductive BuilderError
  | accountPipelineCollision
  | transactionPipelineCollision
  | slotPipelineCollision
  | blockMetaCollision
  | blockCollision
  | missingField (name : String)
  | missingConfig (name : String)
  | metrics
deriving DecidableEq

/-- The pipelines of each kind, with the error of an earlier step of the builder. -/
structure RuntimeBuilder where
  err : Except BuilderError Unit := .ok ()
  account : List Pipeline := []
  transaction : List Pipeline := []
  instruction : List Pipeline := []
  blockMeta : List Pipeline := []
  block : List Pipeline := []
  slot : List Pipeline := []

/-- Pipelines by parser id. -/
abbrev PipelineSet := ExtTreeMap String Pipeline compare

namespace PipelineSet

/-- `FromIterator`: a later pipeline replaces an earlier one with its id. -/
def fromIter (pipelines : List Pipeline) : PipelineSet :=
  filled (pipelines.map fun p => (p.id, p))

/-- The filter of every pipeline under its id. -/
def filters (set : PipelineSet) : List (String × Prefilter) :=
  set.toList.map fun entry => (entry.1, entry.2.prefilter)

end PipelineSet

structure PipelineSets where
  account : PipelineSet
  transaction : PipelineSet
  instruction : PipelineSet
  blockMeta : PipelineSet
  block : PipelineSet
  slot : PipelineSet

/-- The prefilter of every parser. -/
structure Filters where
  parsersFilters : ExtTreeMap String Prefilter compare

def Filters.get (filters : Filters) (parserId : String) : Option Prefilter :=
  filters.parsersFilters[parserId]?

namespace PipelineSets

def filters (sets : PipelineSets) : Filters :=
  ⟨filled (sets.account.filters ++ sets.transaction.filters ++ sets.instruction.filters ++
    sets.blockMeta.filters ++ sets.block.filters ++ sets.slot.filters)⟩

/-- All pipelines of the built sets. -/
def pipelines (sets : PipelineSets) : List Pipeline :=
  (sets.account.toList ++ sets.transaction.toList ++ sets.instruction.toList ++
    sets.blockMeta.toList ++ sets.block.toList ++ sets.slot.toList).map Prod.snd

end PipelineSets

/-- The bundled instruction pipelines as a pipeline of their own. -/
def InstructionPipeline.pipeline (bundle : InstructionPipeline) : Pipeline :=
  ⟨InstructionPipeline.id, bundle.prefilter⟩

namespace RuntimeBuilder

/-- The set that holds the bundle, if there are instruction pipelines. -/
def bundled (builder : RuntimeBuilder) : PipelineSet :=
  match InstructionPipeline.new builder.instruction with
  | none => ∅
  | some bundle => (∅ : PipelineSet).insert bundle.pipeline.id bundle.pipeline

def sets (builder : RuntimeBuilder) : PipelineSets where
  account := .fromIter builder.account
  transaction := .fromIter builder.transaction
  instruction := builder.bundled
  blockMeta := .fromIter builder.blockMeta
  block := .fromIter builder.block
  slot := .fromIter builder.slot

/-- Fewer entries than registered pipelines mean that two of them share an id. -/
def checkCollision (set : PipelineSet) (registered : List Pipeline) (error : BuilderError) :
    Except BuilderError Unit :=
  if set.size ≠ registered.length then .error error else .ok ()

/-- The pipelines that the runtime is built around; its source starts from their filters. -/
def tryBuildWith (builder : RuntimeBuilder) : Except BuilderError PipelineSets := do
  builder.err
  let pipelines := builder.sets
  checkCollision pipelines.account builder.account .accountPipelineCollision
  checkCollision pipelines.transaction builder.transaction .transactionPipelineCollision
  checkCollision pipelines.blockMeta builder.blockMeta .blockMetaCollision
  checkCollision pipelines.block builder.block .blockCollision
  checkCollision pipelines.slot builder.slot .slotPipelineCollision
  return pipelines

/-- The pipelines in the order in which their filters are collected. -/
def chain (builder : RuntimeBuilder) : List Pipeline :=
  builder.account ++ builder.transaction ++
    ((InstructionPipeline.new builder.instruction).map (·.pipeline)).toList ++
    builder.blockMeta ++ builder.block ++ builder.slot

end RuntimeBuilder

/-! ## What a successful build has checked -/

/-- No two pipelines of the list have the same id. -/
def DistinctIds (pipelines : List Pipeline) : Prop := (pipelines.map (·.id)).Nodup

theorem distinctIds_of_check {pipelines : List Pipeline} {error : BuilderError} {u : Unit}
    (h : RuntimeBuilder.checkCollision (.fromIter pipelines) pipelines error = .ok u) :
    DistinctIds pipelines := by
  rw [RuntimeBuilder.checkCollision] at h
  split at h
  · contradiction
  · next hsize =>
      have hfilled : (PipelineSet.fromIter pipelines).size =
          (pipelines.map fun p => (p.id, p)).length := by
        rw [not_not.mp hsize, List.length_map]
      have hnodup := nodup_of_size_filled hfilled
      rwa [List.map_map] at hnodup

/-- A build that succeeds has found no two pipelines of one kind with the same id. -/
theorem tryBuildWith_eq_ok {builder : RuntimeBuilder} {sets : PipelineSets}
    (h : builder.tryBuildWith = .ok sets) :
    sets = builder.sets ∧ DistinctIds builder.account ∧ DistinctIds builder.transaction ∧
      DistinctIds builder.blockMeta ∧ DistinctIds builder.block ∧ DistinctIds builder.slot := by
  obtain ⟨_, -, h⟩ := Fallible.bind_eq_ok.mp h
  obtain ⟨_, haccount, h⟩ := Fallible.bind_eq_ok.mp h
  obtain ⟨_, htransaction, h⟩ := Fallible.bind_eq_ok.mp h
  obtain ⟨_, hblockMeta, h⟩ := Fallible.bind_eq_ok.mp h
  obtain ⟨_, hblock, h⟩ := Fallible.bind_eq_ok.mp h
  obtain ⟨_, hslot, h⟩ := Fallible.bind_eq_ok.mp h
  cases h
  exact ⟨rfl, distinctIds_of_check haccount, distinctIds_of_check htransaction,
    distinctIds_of_check hblockMeta, distinctIds_of_check hblock, distinctIds_of_check hslot⟩

/-! ## The last pipeline of an id -/

/-- The last pipeline with the given id. -/
def lastWith (pipelines : List Pipeline) (id : String) : Option Pipeline :=
  pipelines.reverse.find? (·.id = id)

theorem lastWith_append (front back : List Pipeline) (id : String) :
    lastWith (front ++ back) id = (lastWith back id).or (lastWith front id) := by
  rw [lastWith, List.reverse_append, List.find?_append]
  rfl

theorem lastWith_eq_some {pipelines : List Pipeline} {id : String} {p : Pipeline} :
    lastWith pipelines id = some p ↔ p.id = id ∧
      ∃ front back, pipelines = front ++ p :: back ∧ ∀ r ∈ back, r.id ≠ id := by
  rw [lastWith, List.find?_eq_some_iff_append]
  simp only [decide_eq_true_eq, Bool.not_eq_eq_eq_not, Bool.not_true, decide_eq_false_iff_not]
  refine and_congr_right fun _ => ⟨?_, ?_⟩
  · rintro ⟨after, before, heq, hnone⟩
    refine ⟨before.reverse, after.reverse, ?_, fun r hr => hnone r (List.mem_reverse.mp hr)⟩
    rw [← List.reverse_reverse pipelines, heq]
    simp
  · rintro ⟨front, back, rfl, hnone⟩
    refine ⟨back.reverse, front.reverse, by simp, fun r hr => hnone r (List.mem_reverse.mp hr)⟩

theorem lastWith_isSome {pipelines : List Pipeline} {p : Pipeline} (h : p ∈ pipelines) :
    ∃ q, lastWith pipelines p.id = some q := by
  have hsome : (lastWith pipelines p.id).isSome := by
    rw [lastWith, List.find?_isSome]
    exact ⟨p, List.mem_reverse.mpr h, by simp⟩
  exact Option.isSome_iff_exists.mp hsome

/-- The set holds the last pipeline of every id of the list. -/
def Collects (set : PipelineSet) (pipelines : List Pipeline) : Prop :=
  ∀ id, set[id]? = lastWith pipelines id

theorem lastBinding_map_id (pipelines : List Pipeline) (id : String) :
    lastBinding (pipelines.map fun p => (p.id, p)) id = lastWith pipelines id := by
  rw [lastBinding, ← List.map_reverse, List.find?_map, lastWith, Option.map_map]
  exact Option.map_id'

theorem collects_fromIter (pipelines : List Pipeline) :
    Collects (PipelineSet.fromIter pipelines) pipelines := by
  intro id
  rw [PipelineSet.fromIter, getElem?_filled_eq_lastBinding, lastBinding_map_id]

theorem collects_bundled (builder : RuntimeBuilder) :
    Collects builder.bundled
      ((InstructionPipeline.new builder.instruction).map (·.pipeline)).toList := by
  rw [RuntimeBuilder.bundled]
  cases InstructionPipeline.new builder.instruction with
  | none =>
      intro id
      rfl
  | some bundle =>
      intro id
      rw [getElem?_insert]
      by_cases hid : id = bundle.pipeline.id
      · simp [lastWith, hid]
      · simp [lastWith, hid, Ne.symm hid]

theorem lastBinding_filters (set : PipelineSet) (id : String) :
    lastBinding set.filters id = set[id]?.map (·.prefilter) := by
  rw [← lastBinding_toList, PipelineSet.filters, lastBinding, ← List.map_reverse, List.find?_map,
    lastBinding, Option.map_map, Option.map_map]
  rfl

/-- The published prefilter of an id is that of the last pipeline with this id. -/
theorem filters_get (builder : RuntimeBuilder) (id : String) :
    builder.sets.filters.get id = (lastWith builder.chain id).map (·.prefilter) := by
  rw [Filters.get, PipelineSets.filters]
  simp only [getElem?_filled_eq_lastBinding, lastBinding_append, lastBinding_filters,
    RuntimeBuilder.sets, RuntimeBuilder.chain, lastWith_append, Option.map_or,
    collects_fromIter _ id, collects_bundled builder id]

theorem mem_toList_iff {set : PipelineSet} {pipelines : List Pipeline} {p : Pipeline}
    (h : Collects set pipelines) (hdistinct : DistinctIds pipelines) :
    p ∈ set.toList.map Prod.snd ↔ p ∈ pipelines := by
  constructor
  · intro hp
    obtain ⟨⟨id, q⟩, hmem, rfl⟩ := List.mem_map.mp hp
    have hget := ExtTreeMap.mem_toList_iff_getElem?_eq_some.mp hmem
    rw [h id] at hget
    obtain ⟨-, front, back, rfl, -⟩ := lastWith_eq_some.mp hget
    simp
  · intro hp
    obtain ⟨q, hq⟩ := lastWith_isSome hp
    obtain ⟨hid, front, back, heq, -⟩ := lastWith_eq_some.mp hq
    have hmem : q ∈ pipelines := by simp [heq]
    obtain rfl : q = p := List.inj_on_of_nodup_map hdistinct hmem hp hid
    have hget : set[q.id]? = some q := (h q.id).trans hq
    exact List.mem_map.mpr ⟨(q.id, q), ExtTreeMap.mem_toList_iff_getElem?_eq_some.mpr hget, rfl⟩

/-- Every registered pipeline is among the built ones, the instruction pipelines as their
bundle. -/
theorem mem_pipelines_iff {builder : RuntimeBuilder} {sets : PipelineSets} {p : Pipeline}
    (h : builder.tryBuildWith = .ok sets) : p ∈ sets.pipelines ↔ p ∈ builder.chain := by
  obtain ⟨rfl, haccount, htransaction, hblockMeta, hblock, hslot⟩ := tryBuildWith_eq_ok h
  have hbundle : DistinctIds
      ((InstructionPipeline.new builder.instruction).map (·.pipeline)).toList := by
    cases InstructionPipeline.new builder.instruction with
    | none => exact List.nodup_nil
    | some bundle => exact List.nodup_singleton _
  simp only [PipelineSets.pipelines, RuntimeBuilder.sets, RuntimeBuilder.chain, List.map_append,
    List.mem_append, mem_toList_iff (collects_fromIter _) haccount,
    mem_toList_iff (collects_fromIter _) htransaction,
    mem_toList_iff (collects_bundled builder) hbundle,
    mem_toList_iff (collects_fromIter _) hblockMeta, mem_toList_iff (collects_fromIter _) hblock,
    mem_toList_iff (collects_fromIter _) hslot]

/-! ## Which pipelines stay subscribed -/

/-- `f` has every part that `p` has. -/
structure Includes (f p : Prefilter) : Prop where
  account : p.account = none ∨ f.account = p.account
  transaction : p.transaction = none ∨ f.transaction = p.transaction
  blockMeta : p.blockMeta = none ∨ f.blockMeta = p.blockMeta
  block : p.block = none ∨ f.block = p.block
  slot : p.slot = none ∨ f.slot = p.slot

theorem Includes.refl (p : Prefilter) : Includes p p :=
  ⟨.inr rfl, .inr rfl, .inr rfl, .inr rfl, .inr rfl⟩

/-- A pipeline that is the last one with its id has every part of the earlier pipelines with
this id. -/
def SharedIdsAgree (pipelines : List Pipeline) : Prop :=
  ∀ front q back, pipelines = front ++ q :: back → (∀ r ∈ back, r.id ≠ q.id) →
    ∀ p ∈ front, p.id = q.id → Includes q.prefilter p.prefilter

/-- Every built pipeline finds its own parts in the published filters exactly if pipelines
that share an id across kinds agree. -/
theorem subscribed_iff_sharedIdsAgree (builder : RuntimeBuilder) (sets : PipelineSets)
    (h : builder.tryBuildWith = .ok sets) :
    (∀ p ∈ sets.pipelines, ∃ f, sets.filters.get p.id = some f ∧ Includes f p.prefilter) ↔
      SharedIdsAgree builder.chain := by
  obtain ⟨rfl, -⟩ := tryBuildWith_eq_ok h
  simp only [mem_pipelines_iff h, filters_get]
  constructor
  · intro hall front q back hchain hlast p hp hid
    have hq : lastWith builder.chain p.id = some q := by
      rw [hid]
      exact lastWith_eq_some.mpr ⟨rfl, front, back, hchain, hlast⟩
    obtain ⟨f, hf, hincludes⟩ := hall p (by simp [hchain, hp])
    rw [hq] at hf
    cases hf
    exact hincludes
  · intro hagree p hp
    obtain ⟨q, hq⟩ := lastWith_isSome hp
    obtain ⟨hid, front, back, hchain, hlast⟩ := lastWith_eq_some.mp hq
    refine ⟨q.prefilter, by rw [hq]; rfl, ?_⟩
    rw [hchain, List.mem_append, List.mem_cons] at hp
    obtain hp | rfl | hp := hp
    · exact hagree front q back hchain (fun r hr => hid ▸ hlast r hr) p hp hid.symm
    · exact Includes.refl _
    · exact absurd rfl (hlast p hp)

/-- An account pipeline and a slot pipeline with different ids. -/
def twoIds : RuntimeBuilder where
  account := [⟨"accounts", { account := some {} }⟩]
  slot := [⟨"slots", { slot := some {} }⟩]

theorem subscribed_iff_sharedIdsAgree_of_twoIds :
    twoIds.tryBuildWith = .ok twoIds.sets ∧
      ((∀ p ∈ twoIds.sets.pipelines,
        ∃ f, twoIds.sets.filters.get p.id = some f ∧ Includes f p.prefilter) ↔
          SharedIdsAgree twoIds.chain) := by
  have hbuild : twoIds.tryBuildWith = .ok twoIds.sets := rfl
  exact ⟨hbuild, subscribed_iff_sharedIdsAgree twoIds twoIds.sets hbuild⟩

/-- An account pipeline and a slot pipeline with one id. -/
def oneId : RuntimeBuilder where
  account := [⟨"parser", { account := some {} }⟩]
  slot := [⟨"parser", { slot := some {} }⟩]

/-- The runtime is built, and nothing subscribes for the account pipeline. -/
theorem oneId_leaves_accounts_unsubscribed :
    ¬ ∀ (builder : RuntimeBuilder) (sets : PipelineSets), builder.tryBuildWith = .ok sets →
      ∀ p ∈ sets.pipelines, ∃ f, sets.filters.get p.id = some f ∧ Includes f p.prefilter := by
  intro h
  have hbuild : oneId.tryBuildWith = .ok oneId.sets := rfl
  have hmem : (⟨"parser", { account := some {} }⟩ : Pipeline) ∈ oneId.sets.pipelines := by
    rw [mem_pipelines_iff hbuild]
    exact List.mem_cons_self
  obtain ⟨f, hf, hincludes⟩ := h oneId oneId.sets hbuild _ hmem
  rw [filters_get] at hf
  cases hf
  obtain haccount | haccount := hincludes.account
  · contradiction
  · contradiction

end Shipstern.Runtime
