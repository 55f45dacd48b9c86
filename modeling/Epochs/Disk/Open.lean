import Epochs.Disk.Reads

/-! Opening a store: on whatever files, a store that opens agrees with them. -/

namespace Epochs

open Lib

namespace CasDisk

/-- What an opened store has of the files it was opened on, and what it added to them. -/
structure Opens (before : FileSystem) (path : Path) (disk : CasDisk) : Prop where
  attached : disk.Attached
  repoPath : disk.cas.repoPath = path
  buffer : disk.cas.currentFile.buffer = []
  writeCache : disk.cas.writeCache = LruMap.new writeCacheCap
  dirs : ∀ front, front <+: path ++ ["data"] → disk.fs.node front = some .dir
  grows : FileSystem.Grows
    (fun other => other <+: path ++ ["data"] ∨ other = path ++ ["index.epi"]
      ∨ other = segmentPathFor path disk.cas.currentSegmentId) before disk.fs
  emptyIndex : before.node (path ++ ["index.epi"]) = none → disk.indexBytes = []
  loaded : Index.loadEntries disk.indexBytes.length disk.indexBytes []
    = .ok disk.cas.index.entries
  headed : Headed (disk.segmentBytes disk.cas.currentSegmentId)
  fresh : (∀ name, before.node (path ++ ["data", name]) = none) → disk.cas.currentSegmentId = 0
    ∧ ∃ createdAt, disk.segmentBytes 0 = encodeSegmentHeader 0 createdAt

theorem dropLast_index (repoPath : Path) : (repoPath ++ ["index.epi"]).dropLast = repoPath := by
  simp

theorem dropLast_segment (repoPath : Path) (segmentId : Nat)
    : (segmentPathFor repoPath segmentId).dropLast = repoPath ++ ["data"] := by
  rw [segmentPathFor, List.dropLast_append_of_ne_nil (by simp)]
  rfl

/-- A store that opens agrees with the files it was opened on, whatever they hold. -/
theorem open_meets {world : World} (formed : world.fs.WellFormed) (repoPath : Path)
    : Run.Meets
        (fun cas next => Opens world.fs repoPath { world := next, cas } ∧ world.Lives next)
        (fun _ _ => True)
        (CasStore.open_ repoPath world) := by
  rw [CasStore.open_]
  refine (World.createDirAll_meets (repoPath ++ ["data"]) world).bind ?_
  rintro - first - ⟨made, lives, dirs⟩
  have parent : ∀ front, front <+: (repoPath ++ ["index.epi"]).dropLast
      → first.fs.node front = some .dir := by
    intro front above
    rw [dropLast_index] at above
    exact dirs front (above.trans (List.prefix_append _ _))
  refine (Index.open_meets (made.formed formed) parent).bind ?_
  rintro index second - ⟨indexGrows, secondLives, indexed, emptyIndex, loaded⟩
  rw [Run.get_bind_apply]
  have formedNow := indexGrows.formed (made.formed formed)
  have stillDirs : ∀ front, front <+: repoPath ++ ["data"] → second.fs.node front = some .dir :=
    fun front above => indexGrows.kept front _ (dirs front above)
  refine (openOrCreateSegment_meets formedNow (by
    rw [dropLast_segment]
    exact stillDirs _ List.prefix_rfl) _).bind ?_
  rintro ⟨file, offset⟩ third - ⟨segmentGrows, thirdLives, active, length, headed, header⟩
  dsimp only at active length headed header
  have indexBytes : third.fs.content index.file = second.fs.content index.file :=
    segmentGrows.contents _ _ indexed
  refine ⟨⟨?_, rfl, rfl, rfl, ?_, ?_, ?_, ?_, ?_, ?_⟩, fun alive => thirdLives (secondLives (lives alive))⟩
  · exact
      { formed := segmentGrows.formed formedNow
        data := segmentGrows.kept _ _ (stillDirs _ List.prefix_rfl)
        indexed := segmentGrows.inodeAt indexed
        active
        offset := by simp [segmentBytes, BufWriter.new, length]
        bounded := findLatestSegment_lt
        unused := fun segmentId later small => by
          cases found : third.fs.node (segmentPathFor repoPath segmentId) with
          | none => exact found
          | some node =>
            have above : (findLatestSegment second.fs repoPath).getD 0 < segmentId := later
            rcases segmentGrows.added _ _ found with earlier | same
            · have := le_findLatestSegment formedNow small earlier
              omega
            · have := segmentPathFor_injective small findLatestSegment_lt same
              omega
        located := Index.loadEntries_located loaded (fun _ _ found => by simp at found)
        mapped := fun _ _ found => by simp at found }
  · exact fun front above => segmentGrows.kept front _ (stillDirs front above)
  · refine ((made.mono fun _ above => .inl above).trans
      (indexGrows.mono fun _ same => .inr (.inl same))).trans
        (segmentGrows.mono fun _ same => .inr (.inr same))
  · intro absent
    refine indexBytes.trans (emptyIndex ?_)
    cases found : first.fs.node (repoPath ++ ["index.epi"]) with
    | none => rfl
    | some node =>
      rcases made.added _ _ found with earlier | above
      · simp [absent] at earlier
      · have same := above.eq_of_length (by simp)
        simp at same
  · rw [← indexBytes] at loaded
    exact loaded
  · simpa [segmentBytes, BufWriter.new] using headed
  · intro unwritten
    have empty : ∀ name, second.fs.node (repoPath ++ ["data", name]) = none := by
      intro name
      cases found : second.fs.node (repoPath ++ ["data", name]) with
      | none => rfl
      | some node =>
        rcases indexGrows.added _ _ found with earlier | index
        · rcases made.added _ _ earlier with first | above
          · simp [unwritten] at first
          · have short := above.length_le
            simp at short
        · simp at index
    have latest := findLatestSegment_of_empty formedNow empty
    rw [latest] at header ⊢
    obtain ⟨createdAt, contents⟩ := header (empty _)
    exact ⟨rfl, createdAt, by simpa [segmentBytes, BufWriter.new] using contents⟩

-- A store in a world without files

theorem open_bare_isSome : (Run.valueOf (CasStore.open_ ["repo"] World.bare)).isSome = true := by
  decide +kernel

def ofOpened (result : EStateM.Result (Fault EpochsError) World CasStore)
    (opened : (Run.valueOf result).isSome = true) : CasDisk :=
  { world := Run.stateOf result, cas := (Run.valueOf result).get opened }

theorem eq_ofOpened {result : EStateM.Result (Fault EpochsError) World CasStore}
    (opened : (Run.valueOf result).isSome = true)
    : result = .ok (ofOpened result opened).cas (ofOpened result opened).world :=
  Run.eq_ok_of_valueOf (Option.some_get opened).symm

def bare : CasDisk := ofOpened (CasStore.open_ ["repo"] World.bare) open_bare_isSome

theorem open_eq_bare : CasStore.open_ ["repo"] World.bare = .ok bare.cas bare.world :=
  eq_ofOpened open_bare_isSome

theorem opens_bare : Opens World.bare.fs ["repo"] bare := by
  have meets := (@open_meets World.bare FileSystem.wellFormed_empty ["repo"]).of_ok open_eq_bare
  exact meets.1

def Vacant (fs : FileSystem) (path : Path) : Prop :=
  ∀ name rest, fs.node (path ++ name :: rest) = none

theorem vacant_bare (path : Path) : Vacant World.bare.fs path := by
  intro name rest
  simp [World.bare, FileSystem.node, FileSystem.empty]

end CasDisk
end Epochs
