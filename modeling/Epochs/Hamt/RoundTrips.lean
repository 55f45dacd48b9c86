import Epochs.Core.Blake3
import Epochs.Hamt.Runs

/-! Which nodes are read back. The lengths of a leaf's key and value are narrowed when it is written,
and no operation checks them; the bitmap nodes that operations build have at most 32 children.
-/

namespace Epochs

open Lib Decoder ByteDecoder Traced

namespace HamtNode

def RoundTrips (node : HamtNode) : Prop := decode node.recordType node.encode = .ok node

variable {node : HamtNode}

theorem fits_of_readLeaf {source rest : Bytes}
    (decoded : readLeaf source = .ok (node, rest)) : node.Fits ∧ node.recordType = .hamtLeaf := by
  simp only [readLeaf, bind_eq_ok, readSlice_eq_ok] at decoded
  obtain ⟨klen, _, keyRead, key, _, ⟨rfl, rfl⟩, vlen, _, valueRead, value, _, ⟨rfl, rfl⟩, same⟩ :=
    decoded
  simp only [pure_apply, Except.ok.injEq, Prod.mk.injEq] at same
  obtain ⟨rfl, -⟩ := same
  exact ⟨⟨readUint_lt keyRead, readUint_lt valueRead⟩, rfl⟩

theorem fits_of_readBitmap {source rest : Bytes}
    (decoded : readBitmap source = .ok (node, rest))
    : node.Fits ∧ node.recordType = .hamtBitmap := by
  simp only [readBitmap, bind_eq_ok] at decoded
  obtain ⟨bits, _, -, count, _, countRead, children, _, childrenRead, same⟩ := decoded
  simp only [pure_apply, Except.ok.injEq, Prod.mk.injEq] at same
  obtain ⟨rfl, -⟩ := same
  obtain ⟨-, length, -⟩ := readHash_inverts.many _ _ _ _ childrenRead
  refine ⟨?_, rfl⟩
  rw [Fits, length]
  exact readUint_lt countRead

/-- Every node that is decoded has lengths that fit their fields, and the type it is stored under. -/
theorem fits_of_decode {recordType : RecordType} {payload : Bytes}
    (decoded : decode recordType payload = .ok node)
    : node.Fits ∧ node.recordType = recordType := by
  have read {decoder : ByteDecoder HamtNode} (ran : (decoder payload).map Prod.fst = .ok node)
      : ∃ rest, decoder payload = .ok (node, rest) := by
    cases outcome : decoder payload with
    | error error => simp [outcome, Except.map] at ran
    | ok found =>
      simp only [outcome, Except.map, Except.ok.injEq] at ran
      exact ⟨found.2, by rw [← ran]⟩
  cases recordType with
  | commit => cases decoded
  | hamtBitmap =>
    obtain ⟨rest, ran⟩ := read decoded
    exact fits_of_readBitmap ran
  | hamtLeaf =>
    obtain ⟨rest, ran⟩ := read decoded
    exact fits_of_readLeaf ran

/-- Exactly the nodes whose lengths fit are read back. -/
theorem roundTrips_iff_fits (node : HamtNode) : node.RoundTrips ↔ node.Fits :=
  ⟨fun decoded => (fits_of_decode decoded).1, decode_encode⟩

/-- A bitmap node is determined by its payload and fits with it. -/
theorem fits_of_encode_eq {bits other : BitVec 32} {children others : List Hash}
    (same : (bitmap bits children).encode = (bitmap other others).encode)
    (fits : (bitmap bits children).Fits)
    : (bitmap other others).Fits := by
  have hashes (list : List Hash) : (list.flatMap writeHash).length = 32 * list.length := by
    rw [List.length_flatMap, List.map_congr_left fun hash _ => length_writeHash hash]
    simp [Nat.mul_comm]
  have lengths := congrArg List.length same
  simp only [encode, List.length_append, length_writeU32, length_writeU8, hashes] at lengths
  have short : children.length < 256 := fits
  exact show others.length < 256 by omega

end HamtNode

namespace PersistentHamt

variable {σ : Type} [Blake3] [CasBackend σ] [LawfulCas σ]

-- The bitmap nodes operations build

def CountedNode : HamtNode → Prop
  | .bitmap bitmap children => Counted bitmap children
  | .leaf .. => True

/-- The store holds what was handed over, and the bitmap nodes among it have one child for each bit. -/
structure Proper (traced : Traced σ) : Prop where
  valid : LawfulCas.Valid traced.store
  honest : LawfulCas.Honest traced.store
  held : ∀ hash record, traced.view hash = some record → record ∈ traced.handed
  bitmaps : ∀ payload, (.hamtBitmap, payload) ∈ traced.handed
    → ∃ bitmap children, Counted bitmap children
      ∧ payload = (HamtNode.bitmap bitmap children).encode

/-- A step that keeps a store proper, as long as the payloads fit. -/
structure Stays (before after : Traced σ) : Prop where
  grows : Traced.Grows before after
  proper : Proper before → (∀ object ∈ after.handed, LawfulCas.Storable σ object.2)
    → Proper after

theorem stays_frame : Frame (@Stays σ _ _ _) where
  refl _ := ⟨List.prefix_rfl, fun proper _ => proper⟩
  trans before after :=
    { grows := before.grows.trans after.grows
      proper := fun proper storable =>
        after.proper (before.proper proper fun object member =>
          storable object (after.grows.subset member)) storable }

theorem getRecord_stays (hash : Hash)
    : Run.Within Stays (getRecord hash : Run EpochsError (Traced σ) (RecordType × Bytes)) := by
  intro traced
  have observes := getRecord_observes hash traced
  refine ⟨observes.advances.grows, fun proper _ => ?_⟩
  refine ⟨observes.valid proper.valid, observes.honest proper.valid proper.honest, ?_, ?_⟩
  · rw [observes.view proper.valid, observes.handed]
    exact proper.held
  · rw [observes.handed]
    exact proper.bitmaps

theorem put_stays {node : HamtNode} (counted : CountedNode node)
    : Run.Within Stays
        (put node.recordType node.encode : Run EpochsError (Traced σ) Hash) := by
  intro traced
  have advances := put_advances node.recordType node.encode traced
  refine ⟨advances.grows, fun proper storable => ?_⟩
  have valid := advances.valid proper.valid storable
  have handed := put_handed node.recordType node.encode traced
  have bitmaps : ∀ payload, (.hamtBitmap, payload)
      ∈ (Run.stateOf (put node.recordType node.encode traced)).handed
      → ∃ bitmap children, Counted bitmap children
        ∧ payload = (HamtNode.bitmap bitmap children).encode := by
    intro payload member
    rw [handed, List.mem_append, List.mem_singleton] at member
    rcases member with earlier | new
    · exact proper.bitmaps payload earlier
    · cases node with
      | leaf key value => cases new
      | bitmap bitmap children =>
        cases new
        exact ⟨bitmap, children, counted, rfl⟩
  obtain ⟨honest, held⟩ := put_holds node.recordType proper.valid proper.honest
    (storable (node.recordType, node.encode) (by rw [handed]; simp))
  refine ⟨valid, honest, fun hash record found => ?_, bitmaps⟩
  rw [handed]
  rcases held hash record found with earlier | ⟨-, rfl⟩
  · exact List.mem_append_left _ (proper.held hash record earlier)
  · simp

/-- A node that is loaded from a proper store is counted. -/
theorem Proper.countedNode {traced next : Traced σ} {hash : Hash} {node : HamtNode}
    (proper : Proper traced) (loaded : loadNode hash traced = .ok node next) : CountedNode node := by
  obtain ⟨record, middle, read, decoded⟩ := Run.bind_eq_ok.mp loaded
  have member : record ∈ traced.handed := by
    obtain ⟨seen, -, outcome⟩ := getRecord_spec proper.valid hash
    cases found : traced.view hash with
    | none =>
      simp only [found] at outcome
      obtain ⟨error, failed⟩ := outcome
      cases failed.symm.trans read
    | some held =>
      simp only [found] at outcome
      cases outcome.symm.trans read
      exact proper.held hash record found
  obtain ⟨recordType, payload⟩ := record
  have isNode : HamtNode.decode recordType payload = .ok node := by
    cases outcome : HamtNode.decode recordType payload with
    | error error =>
      simp only [outcome] at decoded
      cases decoded
    | ok found =>
      simp only [outcome] at decoded
      cases decoded
      rfl
  cases node with
  | leaf key value => trivial
  | bitmap bitmap children =>
    obtain rfl := (HamtNode.fits_of_decode isNode).2
    obtain ⟨bits, hashes, counted, rfl⟩ := proper.bitmaps payload member
    have same := (HamtNode.decode_encode counted.fits).symm.trans isNode
    cases same
    exact counted

/-- What follows a load has to keep the store proper for counted nodes only. -/
theorem loadNode_bind_stays {α : Type} {hash : Hash} {next : HamtNode → Run EpochsError (Traced σ) α}
    (grows : Run.Within Grows (loadNode hash >>= next))
    (counted : ∀ node, CountedNode node → Run.Within Stays (next node))
    : Run.Within Stays (loadNode hash >>= next) := by
  intro traced
  refine ⟨grows traced, fun proper storable => ?_⟩
  have stays := loadNode_kept (.within stays_frame) getRecord_stays hash traced
  cases loaded : loadNode hash traced with
  | error fault middle =>
    rw [Run.bind_of_error loaded] at storable ⊢
    rw [loaded] at stays
    exact stays.proper proper storable
  | ok node middle =>
    rw [Run.bind_of_ok loaded] at storable ⊢
    rw [loaded] at stays
    have onward := counted node (proper.countedNode loaded) middle
    exact onward.proper (stays.proper proper fun object member =>
      storable object (onward.grows.subset member)) storable

omit [Blake3] [LawfulCas σ] in
theorem writes_grow (node : HamtNode)
    : Run.Within Grows
        (put node.recordType node.encode : Run EpochsError (Traced σ) Hash) :=
  put_grows _ _

theorem persistLeaf_stays (key value : Bytes)
    : Run.Within Stays (persistLeaf key value : Run EpochsError (Traced σ) Hash) :=
  @put_stays σ _ _ _ (.leaf key value) trivial

theorem persistBitmap_stays {bitmap : BitVec 32} {children : List Hash}
    (counted : Counted bitmap children)
    : Run.Within Stays (persistBitmap bitmap children : Run EpochsError (Traced σ) Hash) :=
  @put_stays σ _ _ _ (.bitmap bitmap children) counted

theorem insertInternal_stays (fuel : Nat)
    : (∀ nodeHash key value keyHash depth,
        Run.Within Stays
          (insertInternal fuel nodeHash key value keyHash depth : Run EpochsError (Traced σ) _))
      ∧ (∀ existingKey existingVal existingKeyHash newKey newVal newKeyHash depth,
          Run.Within Stays
            (expandLeafCollision fuel existingKey existingVal existingKeyHash newKey newVal
              newKeyHash depth : Run EpochsError (Traced σ) _)) := by
  have grows := insertInternal_within (grows_frame (σ := σ)) getRecord_grows writes_grow
  induction fuel with
  | zero =>
    refine ⟨fun _ _ _ _ _ => ?_, fun _ _ _ _ _ _ _ => ?_⟩
    · unfold insertInternal
      exact .throw stays_frame _
    · unfold expandLeafCollision
      exact .throw stays_frame _
  | succ fuel ih =>
    refine ⟨fun nodeHash key value keyHash depth => ?_,
      fun existingKey existingVal existingKeyHash newKey newVal newKeyHash depth => ?_⟩
    · cases nodeHash with
      | none =>
        unfold insertInternal
        exact persistLeaf_stays key value
      | some hash =>
        have whole := (grows (fuel + 1)).1 (some hash) key value keyHash depth
        unfold insertInternal at whole ⊢
        refine loadNode_bind_stays whole fun node counted => ?_
        cases node with
        | leaf existingKey existingVal =>
          simp only
          split
          · exact persistLeaf_stays key value
          · exact ih.2 _ _ _ _ _ _ _
        | bitmap bitmap children =>
          simp only
          split
          · exact .bind stays_frame (.index stays_frame _ _) fun child =>
              .bind stays_frame (ih.1 _ _ _ _ _) fun newChild =>
              .setAt_bind stays_frame (persistBitmap_stays (counted.set _ newChild))
          · rename_i absent
            have free := (and_bitMask_eq_zero bitmap _).mp (not_not.mp absent)
            exact .bind stays_frame (persistLeaf_stays key value) fun newLeaf =>
              .insertAt_bind stays_frame (persistBitmap_stays (counted.insert free newLeaf))
    · unfold expandLeafCollision
      simp only
      split
      · exact .bind stays_frame (persistLeaf_stays _ _) fun oldLeaf => ih.1 _ _ _ _ _
      · rename_i different
        exact .bind stays_frame (persistLeaf_stays _ _) fun oldLeaf => .bind stays_frame (persistLeaf_stays _ _) fun newLeaf =>
          persistBitmap_stays (counted_pair different oldLeaf newLeaf)

theorem removeInternal_stays (fuel : Nat) (nodeHash : Hash) (key : Bytes) (keyHash : Hash)
    (depth : Nat)
    : Run.Within Stays
        (removeInternal fuel nodeHash key keyHash depth : Run EpochsError (Traced σ) _) := by
  induction fuel generalizing nodeHash depth with
  | zero => exact .throw stays_frame _
  | succ fuel ih =>
    refine loadNode_bind_stays (removeInternal_within (grows_frame (σ := σ))
      getRecord_grows writes_grow (fuel + 1) nodeHash key keyHash depth)
      fun node counted => ?_
    cases node with
    | leaf k v =>
      simp only
      split <;> exact .pure stays_frame _
    | bitmap bitmap children =>
      simp only
      split
      · exact .pure stays_frame _
      · rename_i occupied
        have here : bitmap.getLsbD (extract5Bits keyHash depth) = true := by
          rwa [and_bitMask_eq_zero, Bool.not_eq_false] at occupied
        refine .bind stays_frame (.index stays_frame _ _) fun child =>
          .bind stays_frame (ih child (depth + 1)) fun removed => ?_
        cases removed with
        | none =>
          refine .removeAt_bind stays_frame ?_
          split
          · exact .pure stays_frame _
          · exact .bind stays_frame (persistBitmap_stays (counted.remove here))
              fun _ => .pure stays_frame _
        | some newChild =>
          exact .setAt_bind stays_frame (.bind stays_frame
            (persistBitmap_stays (counted.set _ newChild)) fun _ => .pure stays_frame _)

theorem runOps_stays (fuel : Nat) (ops : List HamtOp) (root : Option Hash)
    : Run.Within Stays (runOps fuel ops root : Run EpochsError (Traced σ) (Option Hash)) := by
  induction ops generalizing root with
  | nil => exact .pure stays_frame _
  | cons op rest ih =>
    refine .bind stays_frame ?_ ih
    cases op with
    | insert key value =>
      exact .bind stays_frame ((insertInternal_stays fuel).1 _ _ _ _ _)
        fun _ => .pure stays_frame _
    | remove key =>
      cases root with
      | none => exact .pure stays_frame _
      | some hash => exact removeInternal_stays fuel hash key _ 0

/-- In a run of mutations every leaf that is inserted and every bitmap node that is built is read back
exactly if the sizes of all inserted keys and values fit.
-/
theorem nodes_roundTrip_iff {fuel : Nat} {ops : List HamtOp} {root : Option Hash}
    {traced : Traced σ} (proper : Proper traced)
    (storable : ∀ object ∈ (Run.stateOf (runOps fuel ops root traced)).handed,
      LawfulCas.Storable σ object.2)
    : (∀ key value, .insert key value ∈ ops → (HamtNode.leaf key value).RoundTrips)
        ∧ (∀ bitmap children,
          (.hamtBitmap, (HamtNode.bitmap bitmap children).encode)
              ∈ (Run.stateOf (runOps fuel ops root traced)).handed
            → (HamtNode.bitmap bitmap children).RoundTrips)
      ↔ ∀ key value, .insert key value ∈ ops → key.length < 65536 ∧ value.length < 2 ^ 32 := by
  have after := (runOps_stays fuel ops root traced).proper proper storable
  constructor
  · intro ⟨leaves, _⟩ key value member
    exact (HamtNode.roundTrips_iff_fits _).mp (leaves key value member)
  · intro fits
    refine ⟨fun key value member => (HamtNode.roundTrips_iff_fits _).mpr (fits key value member),
      fun bitmap children member => (HamtNode.roundTrips_iff_fits _).mpr ?_⟩
    obtain ⟨bits, hashes, counted, same⟩ := after.bitmaps _ member
    exact HamtNode.fits_of_encode_eq same.symm counted.fits

omit [Blake3] in
/-- The empty store in memory. -/
theorem proper_new [Blake3] : Proper (⟨MemCas.new, []⟩ : Traced MemCas) where
  valid := trivial
  honest := trivial
  held _ _ found := absurd found (by simp [view, LawfulCas.view])
  bitmaps _ member := absurd member List.not_mem_nil

end PersistentHamt
end Epochs

namespace Epochs.PersistentHamt

open Lib Traced

attribute [local instance] Blake3.linked

def twoInserts : List HamtOp := [.insert [1] [10], .insert [2] [20]]

theorem nodes_roundTrip_iff_twoInserts
    : (HamtNode.leaf [1] [10]).RoundTrips
      ∧ ((Run.stateOf (runOps 8 twoInserts none (⟨MemCas.new, []⟩ : Traced MemCas))).handed.map
          Prod.fst).contains .hamtBitmap
      ∧ ∀ bitmap children, (.hamtBitmap, (HamtNode.bitmap bitmap children).encode)
          ∈ (Run.stateOf (runOps 8 twoInserts none (⟨MemCas.new, []⟩ : Traced MemCas))).handed
        → (HamtNode.bitmap bitmap children).RoundTrips := by
  have fits : ∀ key value, .insert key value ∈ twoInserts
      → key.length < 65536 ∧ value.length < 2 ^ 32 := by
    intro key value member
    rcases List.mem_cons.mp member with first | second
    · cases first
      decide
    · cases List.mem_singleton.mp second
      decide
  obtain ⟨leaves, bitmaps⟩ := (@nodes_roundTrip_iff MemCas _ _ _ 8 twoInserts none _ proper_new
    fun _ _ => trivial).mpr fits
  exact ⟨leaves [1] [10] (by decide), by decide +kernel, bitmaps⟩

def longKey : Bytes := List.replicate 65536 0

/-- The key is accepted, and its leaf is not read back. -/
theorem longKey_not_roundTrip
    : (∃ hash last, insert 1 none longKey [] (⟨MemCas.new, []⟩ : Traced MemCas) = .ok hash last)
      ∧ ¬ (HamtNode.leaf longKey []).RoundTrips := by
  constructor
  · obtain ⟨next, stored, -⟩ := MemCas.put_apply .hamtLeaf (HamtNode.leaf longKey []).encode MemCas.new
    refine ⟨Hash.ofBytes (HamtNode.leaf longKey []).encode,
      ⟨next, [(.hamtLeaf, (HamtNode.leaf longKey []).encode)]⟩, ?_⟩
    unfold insert insertInternal persistLeaf
    rw [Traced.put_apply, Traced.onStore_apply]
    simp only [Traced.handOver, CasBackend.put, stored]
    rfl
  · rw [HamtNode.roundTrips_iff_fits]
    rintro ⟨short, -⟩
    rw [longKey, List.length_replicate] at short
    omega

end Epochs.PersistentHamt
