/-
# The compiled-class marker (`papyrus_storage`: `compiled_class.rs`, `state/mod.rs`)

The `CompiledClass` marker is meant to be the first block some of whose declared classes have no
casm yet (or the state marker, if there is none): every class declared below it has its casm.
Two writes move it, with different rules:

* `append_casm` (`update_marker`) moves it past a block when the casm appended is that block's
  LAST declared class, or when the block declares none, and stops at a block without a diff;
* `append_state_diff` (`advance_compiled_class_marker_over_blocks_without_classes`) moves it only
  over blocks that declare no classes;

and `revert_state_diff` lowers it when it stood just past the reverted block.

The marker is never above the state marker (`MarkerBelow.writes`), but it is not exact: a
block's casms appended out of order move it past a class without a casm, and casms appended
before their block's diff, as `native_blockifier`'s `append_block` does, leave it below a block
whose casms are all there (`compiledClassMarker_not_exact`).  `expectedCompiledClassMarker` is
the value it is meant to have.

A write that fails aborts its transaction, so a sequence of writes the storage accepts is the
same whatever transactions group it; the writes are taken one at a time.
-/
import Sequencer.Storage.State
import Mathlib.Algebra.Order.BigOperators.Group.List
import Mathlib.Algebra.Order.Group.Nat

namespace Sequencer.Storage.CompiledClass

open OrderedTable

/-- `CasmContractClass`, opaque here. -/
abbrev CasmContractClass := Nat

/-- A key bound in a table of blocks is at most the sum of its keys. -/
theorem le_sum_keys_of_get {ν : Type} {t : OrderedTable BlockNumber ν} {k : BlockNumber} {v : ν}
    (h : t.get k = some v) : k ≤ (t.entries.map Prod.fst).sum := by
  obtain ⟨e, hfind, -⟩ := Option.map_eq_some_iff.mp h
  have hk : e.1 = k := by simpa using List.find?_some hfind
  rw [← hk]
  exact List.le_sum_of_mem (List.mem_map_of_mem (List.mem_of_find?_eq_some hfind))

/-! ## 1. The two rules that move the marker -/

/-- The loop of `update_marker`, after `append_casm` of `classHash`: the marker moves past a
block whose last declared class is `classHash` or that declares none, until a block without a
diff. -/
def updateMarker (stateDiffs : OrderedTable BlockNumber ThinStateDiff) (classHash : ClassHash)
    (blockNumber : BlockNumber) : BlockNumber :=
  match h : stateDiffs.get blockNumber with
  | none => blockNumber
  | some thinStateDiff =>
    match thinStateDiff.declaredClasses.entries.getLast? with
    | some (lastClassHash, _) =>
      -- not the last class in the state diff: keep the current marker
      if lastClassHash ≠ classHash then blockNumber
      else updateMarker stateDiffs classHash (blockNumber + 1)
    | none => updateMarker stateDiffs classHash (blockNumber + 1)
termination_by (stateDiffs.entries.map Prod.fst).sum + 1 - blockNumber
decreasing_by
  all_goals
    have := le_sum_keys_of_get h
    unfold BlockNumber at *
    omega

/-- `advance_compiled_class_marker_over_blocks_without_classes`; `none` is its panic on a
missing diff below the state marker. -/
def advanceCompiledClassMarkerOverBlocksWithoutClasses
    (stateDiffs : OrderedTable BlockNumber ThinStateDiff) (stateMarker : BlockNumber)
    (compiledClassMarker : BlockNumber) : Option BlockNumber :=
  if compiledClassMarker < stateMarker then
    match stateDiffs.get compiledClassMarker with
    | none => none
    | some thinStateDiff =>
      if !thinStateDiff.declaredClasses.isEmpty then some compiledClassMarker
      else advanceCompiledClassMarkerOverBlocksWithoutClasses stateDiffs stateMarker
        (compiledClassMarker + 1)
  else some compiledClassMarker
termination_by stateMarker - compiledClassMarker
decreasing_by
  unfold BlockNumber at *
  omega

/-- `delete_compiled_classes`: the casms of the classes, up to the first that has none. -/
def deleteCompiledClasses : List ClassHash → OrderedTable ClassHash CasmContractClass →
    OrderedTable ClassHash CasmContractClass
  | [], casms => casms
  | classHash :: classHashes, casms =>
    match casms.get classHash with
    | none => casms
    | some _ => deleteCompiledClasses classHashes (casms.erase classHash)

/-! ## 2. The storage and its writes -/

/-- The state tables, the `casms` table, and the `CompiledClass` marker. -/
structure ClassStorage where
  state : StateStorage
  casms : OrderedTable ClassHash CasmContractClass
  compiledClassMarker : BlockNumber

namespace ClassStorage

/-- A storage nothing was written to. -/
def empty : ClassStorage := ⟨.empty, .empty, 0⟩

/-- `append_state_diff`: the state tables and the state marker, then the marker over blocks
without classes.  `none` is a panic. -/
def appendStateDiff (s : ClassStorage) (blockNumber : BlockNumber) (thinStateDiff : ThinStateDiff) :
    Option (Except StorageError ClassStorage) :=
  match Storage.appendStateDiff s.state blockNumber thinStateDiff with
  | .error e => some (.error e)
  | .ok state =>
    (advanceCompiledClassMarkerOverBlocksWithoutClasses state.stateDiffs state.stateMarker
        s.compiledClassMarker).map fun compiledClassMarker =>
      .ok ⟨state, s.casms, compiledClassMarker⟩

/-- `append_casm`: a class's casm goes in once, and the marker is updated. -/
def appendCasm (s : ClassStorage) (classHash : ClassHash) (casm : CasmContractClass) :
    Except StorageError ClassStorage := do
  let casms ← (insert s.casms classHash casm).mapError .innerError
  pure ⟨s.state, casms, updateMarker s.state.stateDiffs classHash s.compiledClassMarker⟩

/-- `revert_state_diff`: the marker goes down to the reverted block when it stood just past it,
and the block's casms are deleted.  `none` is a panic. -/
def revertStateDiff (s : ClassStorage) (blockNumber : BlockNumber) :
    Option (ClassStorage × Option ThinStateDiff) :=
  match Storage.revertStateDiff s.state blockNumber with
  | none => none
  | some (state, none) => some ({ s with state }, none)
  | some (state, some thinStateDiff) =>
    let compiledClassMarker :=
      if s.compiledClassMarker = blockNumber + 1 then blockNumber else s.compiledClassMarker
    some (⟨state, deleteCompiledClasses thinStateDiff.declaredClasses.keys s.casms,
      compiledClassMarker⟩, some thinStateDiff)

/-- The writes that move the marker. -/
inductive Write
  | appendStateDiff (blockNumber : BlockNumber) (thinStateDiff : ThinStateDiff)
  | appendCasm (classHash : ClassHash) (casm : CasmContractClass)
  | revertStateDiff (blockNumber : BlockNumber)

/-- One write; `none` is a panic. -/
def write (s : ClassStorage) : Write → Option (Except StorageError ClassStorage)
  | .appendStateDiff blockNumber thinStateDiff => s.appendStateDiff blockNumber thinStateDiff
  | .appendCasm classHash casm => some (s.appendCasm classHash casm)
  | .revertStateDiff blockNumber => (s.revertStateDiff blockNumber).map fun r => .ok r.1

/-- Writes one after the other, up to the first that fails. -/
def writes (s : ClassStorage) : List Write → Option (Except StorageError ClassStorage)
  | [] => some (.ok s)
  | w :: ws =>
    match s.write w with
    | some (.ok s') => s'.writes ws
    | r => r

/-- Whether block `n` declares a class that has no casm. -/
def declaresClassWithoutCasm (s : ClassStorage) (n : BlockNumber) : Bool :=
  match s.state.stateDiffs.get n with
  | some thinStateDiff => thinStateDiff.declaredClasses.keys.any fun h => (s.casms.get h).isNone
  | none => false

/-- What the marker is meant to be: the first block that declares a class without a casm, or
the state marker. -/
def expectedCompiledClassMarker (s : ClassStorage) : BlockNumber :=
  ((List.range s.state.stateMarker).find? s.declaresClassWithoutCasm).getD s.state.stateMarker

end ClassStorage

/-! ## 3. The marker stays below the state marker -/

/-- Diffs are bound only below the state marker. -/
def DiffsBelow (s : StateStorage) : Prop :=
  ∀ k, (s.stateDiffs.get k).isSome → k < s.stateMarker

/-- The marker is at most the state marker, over a state whose diffs are below it. -/
structure MarkerBelow (s : ClassStorage) : Prop where
  diffs : DiffsBelow s.state
  le : s.compiledClassMarker ≤ s.state.stateMarker

theorem MarkerBelow.empty : MarkerBelow ClassStorage.empty := ⟨fun _ h => (by cases h), le_refl 0⟩

theorem DiffsBelow.appendStateDiff {s s' : StateStorage} {blockNumber : BlockNumber}
    {thinStateDiff : ThinStateDiff} (h : DiffsBelow s)
    (happend : Storage.appendStateDiff s blockNumber thinStateDiff = .ok s') : DiffsBelow s' := by
  intro k hk
  obtain ⟨hmarker, hmarker'⟩ := appendStateDiff_stateMarker happend
  rw [appendStateDiff_stateDiffs happend, get_set] at hk
  rw [hmarker']
  split at hk
  · unfold BlockNumber at *
    omega
  · have := h k hk
    unfold BlockNumber at *
    omega

/-- The loop of `update_marker` stops at a block without a diff, so at the latest at the state
marker. -/
theorem updateMarker_le {s : StateStorage} (h : DiffsBelow s) (classHash : ClassHash) :
    ∀ blockNumber, blockNumber ≤ s.stateMarker →
      updateMarker s.stateDiffs classHash blockNumber ≤ s.stateMarker := by
  intro blockNumber hle
  fun_induction updateMarker s.stateDiffs classHash blockNumber with
  | case1 => exact hle
  | case2 blockNumber thinStateDiff hget lastClassHash _ hlast hne => exact hle
  | case3 blockNumber thinStateDiff hget lastClassHash _ hlast heq ih =>
    have := h blockNumber (by simp [hget])
    exact ih (by unfold BlockNumber at *; omega)
  | case4 blockNumber thinStateDiff hget hlast ih =>
    have := h blockNumber (by simp [hget])
    exact ih (by unfold BlockNumber at *; omega)

/-- The loop of `advance_compiled_class_marker_over_blocks_without_classes` stays below the state
marker. -/
theorem advance_le {stateDiffs : OrderedTable BlockNumber ThinStateDiff} {stateMarker : BlockNumber} :
    ∀ {compiledClassMarker m : BlockNumber}, compiledClassMarker ≤ stateMarker →
      advanceCompiledClassMarkerOverBlocksWithoutClasses stateDiffs stateMarker compiledClassMarker =
        some m → m ≤ stateMarker := by
  intro compiledClassMarker m hle hadvance
  fun_induction advanceCompiledClassMarkerOverBlocksWithoutClasses stateDiffs stateMarker
    compiledClassMarker with
  | case1 => cases hadvance
  | case2 compiledClassMarker hlt thinStateDiff hget hclasses =>
    cases hadvance
    exact hle
  | case3 compiledClassMarker hlt thinStateDiff hget hclasses ih =>
    exact ih (by unfold BlockNumber at *; omega) hadvance
  | case4 compiledClassMarker hge =>
    cases hadvance
    exact hle

theorem MarkerBelow.appendStateDiff {s : ClassStorage} (h : MarkerBelow s)
    {blockNumber : BlockNumber} {thinStateDiff : ThinStateDiff} {s' : ClassStorage}
    (hs : s.appendStateDiff blockNumber thinStateDiff = some (.ok s')) : MarkerBelow s' := by
  unfold ClassStorage.appendStateDiff at hs
  split at hs
  · cases hs
  · rename_i state happend
    obtain ⟨m, hadvance, hs'⟩ := Option.map_eq_some_iff.mp hs
    cases hs'
    obtain ⟨hmarker, hmarker'⟩ := appendStateDiff_stateMarker happend
    have hle : s.compiledClassMarker ≤ state.stateMarker := by
      have := h.le
      unfold BlockNumber at *
      omega
    exact ⟨h.diffs.appendStateDiff happend, advance_le hle hadvance⟩

theorem MarkerBelow.appendCasm {s : ClassStorage} (h : MarkerBelow s) {classHash : ClassHash}
    {casm : CasmContractClass} {s' : ClassStorage} (hs : s.appendCasm classHash casm = .ok s') :
    MarkerBelow s' := by
  unfold ClassStorage.appendCasm at hs
  obtain ⟨casms, -, hs'⟩ := bind_eq_ok.mp hs
  cases pure_eq_ok.mp hs'
  exact ⟨h.diffs, updateMarker_le h.diffs classHash _ h.le⟩

theorem MarkerBelow.revertStateDiff {s : ClassStorage} (h : MarkerBelow s)
    {blockNumber : BlockNumber} {r : ClassStorage × Option ThinStateDiff}
    (hs : s.revertStateDiff blockNumber = some r) : MarkerBelow r.1 := by
  unfold ClassStorage.revertStateDiff at hs
  split at hs
  · cases hs
  · rename_i state hrevert
    cases hs
    -- a revert that is not of the last block changes nothing
    have hstate : state = s.state := by
      unfold Storage.revertStateDiff at hrevert
      split at hrevert
      · exact (Prod.mk.inj (Option.some.inj hrevert)).1.symm
      · obtain ⟨d, -, hd⟩ := Option.bind_eq_some_iff.mp hrevert
        cases (Prod.mk.inj (Option.some.inj hd)).2
    subst hstate
    exact h
  · rename_i state thinStateDiff hrevert
    cases hs
    unfold Storage.revertStateDiff at hrevert
    split at hrevert
    · cases (Prod.mk.inj (Option.some.inj hrevert)).2
    · rename_i hlast
      obtain ⟨d, hget, hd⟩ := Option.bind_eq_some_iff.mp hrevert
      cases hd
      have hmarker : blockNumber + 1 = s.state.stateMarker := not_not.mp hlast
      refine ⟨fun k hk => ?_, ?_⟩
      · -- the reverted block's diff is gone, and every other was below its successor
        dsimp only at hk ⊢
        rw [get_erase] at hk
        split at hk
        · cases hk
        · have := h.diffs k hk
          unfold BlockNumber at *
          omega
      · dsimp only
        have := h.le
        unfold BlockNumber at *
        split <;> omega

/-- **The marker never passes the state marker**, after any writes the storage accepts. -/
theorem MarkerBelow.writes {s : ClassStorage} (h : MarkerBelow s) :
    ∀ (ws : List ClassStorage.Write) {s' : ClassStorage}, s.writes ws = some (.ok s') →
      MarkerBelow s'
  | [], _, hs => by
    cases hs
    exact h
  | w :: ws, s', hs => by
    cases hw : s.write w with
    | none => simp [ClassStorage.writes, hw] at hs
    | some r =>
      cases r with
      | error e => simp [ClassStorage.writes, hw] at hs
      | ok s₁ =>
        simp only [ClassStorage.writes, hw] at hs
        -- the storage after one accepted write keeps the invariant
        have h₁ : MarkerBelow s₁ := by
          cases w with
          | appendStateDiff blockNumber thinStateDiff => exact h.appendStateDiff hw
          | appendCasm classHash casm => exact h.appendCasm (Option.some.inj hw)
          | revertStateDiff blockNumber =>
            obtain ⟨r, hr, hr'⟩ := Option.map_eq_some_iff.mp hw
            cases hr'
            exact h.revertStateDiff hr
        exact h₁.writes ws hs

/-! ## 4. The marker is not exact -/

/-- A diff of block `n` declaring the classes `classHashes`, and nothing else. -/
def declaringDiff (classHashes : List ClassHash) (hnodup : classHashes.Nodup) : ThinStateDiff :=
  ⟨IndexMap.empty, IndexMap.empty, ⟨classHashes.map fun h => (h, 0), by simpa [Function.comp_def] using hnodup⟩, [],
    IndexMap.empty, IndexMap.empty⟩

/-- Block 0 declares classes 1 and 2; only the casm of class 2 is appended. -/
def casmOutOfOrderWrites : List ClassStorage.Write :=
  [.appendStateDiff 0 (declaringDiff [1, 2] (by decide)), .appendCasm 2 0]

/-- The casms of classes 1 and 2 are appended before block 0's diff, which declares them. -/
def casmsBeforeDiffWrites : List ClassStorage.Write :=
  [.appendCasm 1 0, .appendCasm 2 0, .appendStateDiff 0 (declaringDiff [1, 2] (by decide))]

/-- Out of order, the marker passes block 0 though class 1 has no casm; before the diff, it
stays at block 0 though both casms are there. -/
theorem compiledClassMarker_not_exact :
    (ClassStorage.empty.writes casmOutOfOrderWrites).map
        (fun r => r.toOption.map fun s => (s.compiledClassMarker, s.expectedCompiledClassMarker)) =
      some (some (1, 0)) ∧
    (ClassStorage.empty.writes casmsBeforeDiffWrites).map
        (fun r => r.toOption.map fun s => (s.compiledClassMarker, s.expectedCompiledClassMarker)) =
      some (some (0, 1)) := by
  decide +kernel

end Sequencer.Storage.CompiledClass
