import Mathlib.Data.Fintype.Card
import Epochs.Disk.Index

/-! What an index file of arbitrary contents reads back after further entries are appended.
Opening reads whole entries from the start and ignores a shorter rest, but appending goes to
the end of the file: after a torn entry every later one is read out of its frame. An entry also
keeps only the low 48 bits of its offset.
-/

namespace Epochs

open Lib FileSystem

-- Arbitrary contents as entries and a torn rest

namespace IndexEntry

def kept (entry : IndexEntry) : IndexEntry := { entry with offset := entry.offset % 2 ^ 48 }

/-- The numbers fit the types of the source, `u16`, `u64` and `u32`. -/
structure Typed (entry : IndexEntry) : Prop where
  segmentId : entry.segmentId < 2 ^ 16
  offset : entry.offset < 2 ^ 64
  recordLen : entry.recordLen < 2 ^ 32

variable {entry : IndexEntry}

theorem Typed.kept_fits (typed : entry.Typed) : entry.kept.Fits where
  segmentId := typed.segmentId
  offset := Nat.mod_lt _ (by decide)
  recordLen := typed.recordLen

theorem Fits.typed (fits : entry.Fits) : entry.Typed where
  segmentId := fits.segmentId
  offset := Nat.lt_trans fits.offset (by decide)
  recordLen := fits.recordLen

theorem kept_eq_self : entry.kept = entry ↔ entry.offset < 2 ^ 48 := by
  cases entry with
  | mk segmentId offset recordLen =>
    simp only [kept, IndexEntry.mk.injEq, true_and, and_true]
    exact Nat.mod_eq_iff_lt (by decide)

theorem encode_kept (hash : Hash) (entry : IndexEntry)
    : encode hash entry.kept = encode hash entry := by
  have same : writeU48 (entry.offset % 2 ^ 48) = writeU48 entry.offset := by
    have whole := leBytes_leNat (writeU48 entry.offset)
    rw [length_writeU48, writeU48, leNat_leBytes] at whole
    exact whole
  simp only [encode, kept, same]

/-- Any bytes of the length of an entry are the bytes of an entry. -/
theorem exists_encode {bytes : Bytes} (size : bytes.length = indexEntryLen)
    : ∃ hash entry, entry.Fits ∧ encode hash entry = bytes := by
  have number (width value : Nat) (slice : Bytes) (length : slice.length = width)
      (read : value = leNat slice) : value < 256 ^ width ∧ leBytes width value = slice := by
    subst length read
    exact ⟨leNat_lt slice, leBytes_leNat slice⟩
  simp only [indexEntryLen] at size
  have segment := number 2 _ ((bytes.drop 32).take 2) (by simp; omega) rfl
  have offset := number 6 _ ((bytes.drop 34).take 6) (by simp; omega) rfl
  have length := number 4 _ (bytes.drop 40) (by simp; omega) rfl
  refine ⟨⟨bytes.take 32, by simp; omega⟩, ⟨_, _, _⟩, ⟨segment.1, offset.1, length.1⟩, ?_⟩
  simp only [encode, writeHash, writeU16, writeU48, writeU32, segment.2, offset.2, length.2]
  have joins (start width : Nat)
      : (bytes.drop start).take width ++ bytes.drop (start + width) = bytes.drop start := by
    rw [← List.drop_drop, List.take_append_drop]
  rw [List.append_assoc, List.append_assoc, joins 34 6, joins 32 2, List.take_append_drop]

end IndexEntry

namespace Index

/-- Any contents are whole entries followed by less than an entry. -/
theorem exists_encodeLog (contents : Bytes)
    : ∃ log torn,
        contents = encodeLog log ++ torn
        ∧ torn.length < indexEntryLen
        ∧ ∀ pair ∈ log, pair.2.Fits := by
  induction size : contents.length using Nat.strongRecOn generalizing contents with
  | ind length ih =>
    by_cases short : contents.length < indexEntryLen
    · exact ⟨[], contents, by simp [encodeLog], short, by simp⟩
    · obtain ⟨hash, entry, fits, encoded⟩ :=
        @IndexEntry.exists_encode (contents.take indexEntryLen) (by simp; omega)
      obtain ⟨log, torn, rest, small, restFits⟩ :=
        ih (contents.drop indexEntryLen).length (by simp [indexEntryLen] at short ⊢; omega) _ rfl
      refine ⟨(hash, entry) :: log, torn, ?_, small, ?_⟩
      · calc contents
            = contents.take indexEntryLen ++ contents.drop indexEntryLen :=
              (List.take_append_drop _ _).symm
          _ = IndexEntry.encode hash entry ++ (encodeLog log ++ torn) := by rw [encoded, rest]
          _ = encodeLog ((hash, entry) :: log) ++ torn := by simp [encodeLog]
      · simp only [List.mem_cons, forall_eq_or_imp]
        exact ⟨fits, restFits⟩

theorem encodeLog_append (first second : List (Hash × IndexEntry))
    : encodeLog (first ++ second) = encodeLog first ++ encodeLog second := by
  simp [encodeLog]

def keptLog (log : List (Hash × IndexEntry)) : List (Hash × IndexEntry) :=
  log.map fun (hash, entry) => (hash, entry.kept)

theorem encodeLog_keptLog (log : List (Hash × IndexEntry))
    : encodeLog (keptLog log) = encodeLog log := by
  simp [encodeLog, keptLog, List.flatMap_map, IndexEntry.encode_kept]

variable {log : List (Hash × IndexEntry)} {torn : Bytes}

/-- Opening contents of whole entries and a torn rest never fails. -/
theorem loadEntries_whole
    (fits : ∀ pair ∈ log, pair.2.Fits) (short : torn.length < indexEntryLen)
    : loadEntries (encodeLog log ++ torn).length (encodeLog log ++ torn) []
      = .ok (replay log []) := by
  refine loadEntries_encodeLog fits short ?_ []
  rw [List.length_append, length_encodeLog, indexEntryLen]
  omega

variable {earlier : List (Hash × IndexEntry)}

/-- The map of a list of entries with different hashes holds just these. -/
theorem lookup_replay_append (distinct : (log.map Prod.fst).Nodup)
    (fresh : ∀ pair ∈ log, AssocMap.lookup pair.1 (replay earlier []) = none)
    (hash : Hash) (entry : IndexEntry)
    : AssocMap.lookup hash (replay (earlier ++ log) []) = some entry
      ↔ AssocMap.lookup hash (replay earlier []) = some entry ∨ (hash, entry) ∈ log := by
  induction log using List.reverseRecOn with
  | nil => simp
  | append_singleton log last ih =>
    obtain ⟨key, value⟩ := last
    rw [List.map_append, List.nodup_append] at distinct
    have before := ih distinct.1 fun pair member => fresh pair (by simp [member])
    have new := fresh (key, value) (by simp)
    have apart : ∀ other, (key, other) ∉ log := fun other member =>
      distinct.2.2 key (List.mem_map_of_mem member) key (by simp) rfl
    rw [← List.append_assoc, replay_concat, AssocMap.lookup_insert]
    by_cases same : hash = key
    · subst same
      simp [new, apart, eq_comm]
    · simp [Ne.symm same, same, before]

-- Opening, appending and reopening

/-- A file with these contents stands at the path, and nothing stops the process. -/
structure Contains (world : World) (path : Path) (contents : Bytes) : Prop where
  alive : world.deadline = none
  dirs : ∀ front, front <+: path.dropLast → world.fs.node front = some .dir
  file : world.fs.fileAt path = some contents

variable {world : World} {path : Path}

/-- Opening the index of a file takes the entries of its contents. -/
theorem Contains.open_eq
    (holds : Contains world path (encodeLog log ++ torn))
    (fits : ∀ pair ∈ log, pair.2.Fits) (short : torn.length < indexEntryLen)
    : ∃ file, world.fs.inodeAt path = some file
      ∧ open_ path world = .ok ⟨file, replay log []⟩ world := by
  have here := holds.file
  rw [fileAt, Option.map_eq_some_iff] at here
  obtain ⟨file, found, contents⟩ := here
  refine ⟨file, found, ?_⟩
  rw [open_, Run.bind_of_ok (World.createDirAll_of_dirs holds.dirs),
    Run.bind_of_ok (World.openAppend_of_file found), Run.get_bind_apply]
  simp only [contents, loadEntries_whole fits short]
  rfl

def insertAll (index : Index) : List (Hash × IndexEntry) → Run EpochsError World Index
  | [] => pure index
  | (hash, entry) :: rest => do
    let after ← index.insert hash entry
    insertAll after rest

/-- The hashes of the entries differ, and the index holds none of them. -/
structure New (index : Index) (log : List (Hash × IndexEntry)) : Prop where
  absent : ∀ pair ∈ log, index.find pair.1 = none
  distinct : (log.map Prod.fst).Nodup

theorem New.tail {index : Index} {hash : Hash} {entry : IndexEntry}
    {rest : List (Hash × IndexEntry)} (new : index.New ((hash, entry) :: rest))
    : New { index with entries := AssocMap.insert hash entry index.entries } rest := by
  have distinct := new.distinct
  rw [List.map_cons, List.nodup_cons] at distinct
  refine ⟨fun pair member => ?_, distinct.2⟩
  have different : hash ≠ pair.1 := by
    intro same
    exact distinct.1 (same ▸ List.mem_map.mpr ⟨pair, member, rfl⟩)
  rw [find, AssocMap.lookup_insert_of_ne different]
  exact new.absent pair (by simp [member])

variable {index : Index}

/-- Inserting new entries appends their bytes to the file. -/
theorem Contains.insertAll_eq {contents : Bytes}
    (holds : Contains world path contents)
    (file : world.fs.inodeAt path = some index.file)
    (new : index.New log)
    : ∃ last written,
        index.insertAll log world = .ok last written
        ∧ Contains written path (contents ++ encodeLog log) := by
  induction log generalizing index world contents with
  | nil => exact ⟨index, world, rfl, by simpa [encodeLog] using holds⟩
  | cons pair rest ih =>
    obtain ⟨hash, entry⟩ := pair
    have fresh : index.contains hash = false :=
      contains_eq_false.mpr (new.absent (hash, entry) (by simp))
    let next : World :=
      { world with fs := world.fs.append index.file (IndexEntry.encode hash entry) }
    have inserted : index.insert hash entry world
        = .ok { index with entries := AssocMap.insert hash entry index.entries } next := by
      simp [insert, fresh, World.append, holds.alive, Run.bind_apply, next]
    have now : Contains next path (contents ++ IndexEntry.encode hash entry) := by
      refine ⟨holds.alive, fun front above => ?_, ?_⟩
      · rw [node_append]
        exact holds.dirs front above
      · have before := holds.file
        simp only [fileAt, file, Option.map_some, Option.some.injEq] at before
        simp only [fileAt, next, inodeAt_append, file, Option.map_some,
          content_append, if_true, before]
    obtain ⟨last, written, ran, after⟩ := ih now
      (by rw [inodeAt_append]; exact file) new.tail
    refine ⟨last, written, by rw [insertAll, Run.bind_of_ok inserted, ran], ?_⟩
    simpa [encodeLog] using after

/-- After these insertions the file reads back the entries the index had and those inserted. -/
def Recovers (path : Path) (index : Index) (world : World) (log : List (Hash × IndexEntry))
    : Prop :=
  ∃ last written again reopened,
    index.insertAll log world = .ok last written
    ∧ open_ path written = .ok again reopened
    ∧ ∀ hash entry, again.find hash = some entry
        ↔ index.find hash = some entry ∨ (hash, entry) ∈ log

/-- Whether the file recovers is told by the whole entries of the contents it ends up with. -/
theorem Contains.recovers_iff {contents : Bytes}
    (holds : Contains world path contents)
    (file : world.fs.inodeAt path = some index.file) {whole : List (Hash × IndexEntry)}
    (new : index.New log) (ends : contents ++ encodeLog log = encodeLog whole ++ torn)
    (fits : ∀ pair ∈ whole, pair.2.Fits) (short : torn.length < indexEntryLen)
    : Recovers path index world log
      ↔ ∀ hash entry, AssocMap.lookup hash (replay whole []) = some entry
          ↔ index.find hash = some entry ∨ (hash, entry) ∈ log := by
  obtain ⟨last, written, ran, after⟩ := holds.insertAll_eq file new
  rw [ends] at after
  obtain ⟨_, -, reopened⟩ := after.open_eq fits short
  constructor
  · rintro ⟨last', written', again, next, ran', reopened', same⟩
    rw [ran] at ran'
    cases ran'
    rw [reopened] at reopened'
    cases reopened'
    exact same
  · intro same
    exact ⟨last, written, _, _, ran, reopened, same⟩

/-- From whole entries the file recovers exactly the entries whose offsets fit 48 bits. -/
theorem Contains.recovers_whole_iff
    (holds : Contains world path (encodeLog earlier))
    (fits : ∀ pair ∈ earlier, pair.2.Fits)
    (file : world.fs.inodeAt path = some index.file) (entries : index.entries = replay earlier [])
    (new : index.New log) (typed : ∀ pair ∈ log, pair.2.Typed)
    : Recovers path index world log ↔ ∀ pair ∈ log, pair.2.offset < 2 ^ 48 := by
  have wholeFits : ∀ pair ∈ earlier ++ keptLog log, pair.2.Fits := by
    intro pair member
    rcases List.mem_append.mp member with old | added
    · exact fits pair old
    · obtain ⟨source, inLog, rfl⟩ := List.mem_map.mp added
      exact (typed source inLog).kept_fits
  have hashes : (keptLog log).map Prod.fst = log.map Prod.fst := by
    simp [keptLog, Function.comp_def]
  have fresh : ∀ pair ∈ keptLog log, AssocMap.lookup pair.1 (replay earlier []) = none := by
    intro pair member
    obtain ⟨source, inLog, rfl⟩ := List.mem_map.mp member
    rw [← entries]
    exact new.absent source inLog
  have reads := lookup_replay_append (hashes ▸ new.distinct) fresh
  have ends : encodeLog earlier ++ encodeLog log = encodeLog (earlier ++ keptLog log) ++ [] := by
    rw [encodeLog_append, encodeLog_keptLog, List.append_nil]
  rw [holds.recovers_iff file new ends wholeFits (by decide)]
  constructor
  · rintro same ⟨hash, entry⟩ member
    have found := (same hash entry).mpr (.inr member)
    rw [reads, ← entries] at found
    rcases found with old | kept
    · have absent := new.absent (hash, entry) member
      rw [find, old] at absent
      cases absent
    · obtain ⟨source, -, same⟩ := List.mem_map.mp kept
      cases same
      exact Nat.mod_lt _ (by decide)
  · intro small hash entry
    have same : keptLog log = log := by
      have unchanged : ∀ pair ∈ log, (pair.1, pair.2.kept) = pair := fun pair member => by
        rw [IndexEntry.kept_eq_self.mpr (small pair member)]
      exact (List.map_congr_left unchanged).trans (List.map_id log)
    rw [reads, same, find, entries]

/-- After a torn entry, an inserted entry is lost if its hash starts with another byte. -/
theorem Contains.not_recovers_torn {world : World} {path : Path} {first : UInt8} {torn : Bytes}
    {earlier : List (Hash × IndexEntry)}
    (holds : Contains world path (encodeLog earlier ++ first :: torn))
    (fits : ∀ pair ∈ earlier, pair.2.Fits) (short : (first :: torn).length < indexEntryLen)
    {index : Index} (file : world.fs.inodeAt path = some index.file)
    (entries : index.entries = replay earlier []) {hash : Hash} (entry : IndexEntry)
    (new : index.New [(hash, entry)]) (other : hash.bytes.head? ≠ some first)
    : ¬ Recovers path index world [(hash, entry)] := by
  -- The next whole entry starts with the torn bytes.
  let tail := first :: torn ++ IndexEntry.encode hash entry
  have length : tail.length = (first :: torn).length + indexEntryLen := by
    rw [List.length_append, IndexEntry.length_encode]
  obtain ⟨key, value, small, framed⟩ :=
    @IndexEntry.exists_encode (tail.take indexEntryLen) (by rw [List.length_take]; omega)
  have starts : key.bytes.head? = some first := by
    have start := congrArg List.head? framed
    have nonempty : key.bytes ≠ [] := by
      intro empty
      have size := key.size
      simp [empty] at size
    simp only [IndexEntry.encode, writeHash, List.append_assoc, tail, indexEntryLen,
      List.cons_append, List.take_succ_cons, List.head?_cons] at start
    rwa [List.head?_append_of_ne_nil _ nonempty] at start
  have apart : key ≠ hash := by
    rintro rfl
    exact other starts
  have ends : encodeLog earlier ++ first :: torn ++ encodeLog [(hash, entry)]
      = encodeLog (earlier ++ [(key, value)]) ++ tail.drop indexEntryLen := by
    have rest : encodeLog [(hash, entry)] = IndexEntry.encode hash entry := by simp [encodeLog]
    rw [encodeLog_concat, framed, rest, List.append_assoc, List.append_assoc,
      List.take_append_drop]
  rw [holds.recovers_iff file new ends ?_ (by rw [List.length_drop]; omega)]
  · intro same
    have found := (same hash entry).mpr (.inr (by simp))
    have absent := new.absent (hash, entry) (by simp)
    rw [find, entries] at absent
    rw [replay_concat, AssocMap.lookup_insert_of_ne apart, absent] at found
    cases found
  · intro pair member
    rcases List.mem_append.mp member with old | added
    · exact fits pair old
    · cases List.mem_singleton.mp added
      exact small

/-- Below the size a file can have, there is a hash the file does not hold that starts with
another byte than a given one.
-/
theorem exists_new_hash
    (size : (encodeLog earlier).length < 2 ^ 64) (first : UInt8)
    : ∃ hash : Hash, hash ∉ earlier.map Prod.fst ∧ hash.bytes.head? ≠ some first := by
  let numbered (number : Fin (2 ^ 64)) : Hash :=
    ⟨(first + 1) :: leBytes 8 number ++ List.replicate 23 0, by simp [length_leBytes]⟩
  have injective : Function.Injective numbered := by
    intro one two same
    have bytes := congrArg Hash.bytes same
    simp only [numbered, List.cons_append, List.cons.injEq, true_and] at bytes
    have equal := congrArg leNat (List.append_inj_left bytes (by simp [length_leBytes]))
    rw [leNat_leBytes_of_lt (by simp), leNat_leBytes_of_lt (by simp)] at equal
    exact Fin.ext equal
  have few : (earlier.map Prod.fst).toFinset.card < (Finset.univ.image numbered).card := by
    rw [Finset.card_image_of_injective _ injective, Finset.card_univ, Fintype.card_fin]
    rw [length_encodeLog, indexEntryLen] at size
    have short := List.toFinset_card_le (earlier.map Prod.fst)
    rw [List.length_map] at short
    omega
  obtain ⟨hash, member, absent⟩ := Finset.exists_mem_notMem_of_card_lt_card few
  obtain ⟨number, -, rfl⟩ := Finset.mem_image.mp member
  refine ⟨_, fun held => absent (List.mem_toFinset.mpr held), ?_⟩
  simp [numbered]

theorem lookup_replay_of_not_mem {hash : Hash}
    (absent : hash ∉ earlier.map Prod.fst)
    : AssocMap.lookup hash (replay earlier []) = none := by
  induction earlier using List.reverseRecOn with
  | nil => rfl
  | append_singleton earlier last ih =>
    rw [List.map_append, List.mem_append, not_or] at absent
    rw [replay_concat, AssocMap.lookup_insert_of_ne (by simpa [eq_comm] using absent.2)]
    exact ih absent.1

-- Recovery

/-- Opening an index file of any contents succeeds. All later insertions of entries the format
can hold are recovered exactly if the contents are whole entries; and then an insertion of any
entries is recovered exactly if their offsets fit 48 bits.
-/
theorem index_recovers_iff {world : World} {path : Path} {contents : Bytes}
    (holds : Contains world path contents) (size : contents.length < 2 ^ 64)
    : ∃ index,
        open_ path world = .ok index world
        ∧ ((∀ log, index.New log → (∀ pair ∈ log, pair.2.Fits) → Recovers path index world log)
            ↔ contents.length % indexEntryLen = 0)
        ∧ (contents.length % indexEntryLen = 0
          → ∀ log, index.New log → (∀ pair ∈ log, pair.2.Typed)
            → (Recovers path index world log ↔ ∀ pair ∈ log, pair.2.offset < 2 ^ 48)) := by
  obtain ⟨earlier, torn, rfl, short, fits⟩ := exists_encodeLog contents
  obtain ⟨file, found, opened⟩ := holds.open_eq fits short
  have aligned : (encodeLog earlier ++ torn).length % indexEntryLen = 0 ↔ torn = [] := by
    rw [List.length_append, length_encodeLog, Nat.mul_add_mod, Nat.mod_eq_of_lt short,
      List.length_eq_zero_iff]
  refine ⟨⟨file, replay earlier []⟩, opened, ⟨fun recovers => ?_, fun whole log new small => ?_⟩,
    fun whole log new typed => ?_⟩
  · rw [aligned]
    cases torn with
    | nil => rfl
    | cons first torn =>
      rw [List.length_append] at size
      obtain ⟨hash, absent, other⟩ :=
        exists_new_hash (by omega : (encodeLog earlier).length < 2 ^ 64) first
      let entry : IndexEntry := ⟨0, 16, 45⟩
      have new : New ⟨file, replay earlier []⟩ [(hash, entry)] := by
        refine ⟨fun pair member => ?_, by simp⟩
        cases List.mem_singleton.mp member
        exact lookup_replay_of_not_mem absent
      refine absurd (recovers [(hash, entry)] new fun pair member => ?_)
        (holds.not_recovers_torn fits short found rfl entry new other)
      cases List.mem_singleton.mp member
      exact ⟨by simp [entry], by simp [entry], by simp [entry]⟩
  · cases aligned.mp whole
    rw [List.append_nil] at holds
    exact (holds.recovers_whole_iff fits found rfl new fun pair member =>
      (small pair member).typed).mpr fun pair member => (small pair member).offset
  · cases aligned.mp whole
    rw [List.append_nil] at holds
    exact holds.recovers_whole_iff fits found rfl new typed

def indexFile (contents : Bytes) : World :=
  { World.bare with fs := (FileSystem.empty.create ["index.epi"]).append 0 contents }

theorem contains_indexFile (contents : Bytes)
    : Contains (indexFile contents) ["index.epi"] contents where
  alive := rfl
  dirs front above := by
    cases List.prefix_nil.mp above
    rfl
  file := by
    rw [fileAt, indexFile, inodeAt_append,
      inodeAt_create (by simp), if_pos rfl, Option.map_some]
    rw [content_append]
    rfl

def oneEntry : Bytes := IndexEntry.encode Hash.zero ⟨0, 16, 45⟩

/-- The result on a file that holds one entry. -/
theorem index_recovers_iff_single
    : oneEntry.length < 2 ^ 64
      ∧ ∃ index,
          open_ ["index.epi"] (indexFile oneEntry) = .ok index (indexFile oneEntry)
          ∧ ∀ log, index.New log → (∀ pair ∈ log, pair.2.Fits)
            → Recovers ["index.epi"] index (indexFile oneEntry) log := by
  have size : oneEntry.length = indexEntryLen := IndexEntry.length_encode _ _
  have short : oneEntry.length < 2 ^ 64 := by rw [size]; decide
  obtain ⟨index, opened, recovers, -⟩ := index_recovers_iff (contains_indexFile oneEntry) short
  exact ⟨short, index, opened, recovers.mpr (by rw [size]; rfl)⟩

/-- One byte left of a torn entry loses the next entry. -/
theorem index_not_recovers_torn
    : open_ ["index.epi"] (indexFile [1]) = .ok ⟨0, []⟩ (indexFile [1])
      ∧ New ⟨0, []⟩ [(Hash.zero, ⟨0, 16, 45⟩)]
      ∧ ¬ Recovers ["index.epi"] ⟨0, []⟩ (indexFile [1]) [(Hash.zero, ⟨0, 16, 45⟩)] := by
  have new : New ⟨0, []⟩ [(Hash.zero, ⟨0, 16, 45⟩)] := ⟨by decide, by decide⟩
  refine ⟨rfl, new, ?_⟩
  exact @Contains.not_recovers_torn _ _ _ [] [] (contains_indexFile [1]) (by simp) (by decide) _
    rfl rfl _ _ new (by decide)

end Index
end Epochs
