import Ristux.Vfs.Paths

-- The virtual file system, the process table and the ext2 driver each clean a path on their own.
-- All three arrive at the same string, and a path is the join of its parent and its name.

namespace Ristux.Vfs
open Lib Ext2 List

/-- `normalize_process_path`, as `process/mod.rs` has it. -/
def normalizeProcessPath (path : Str) : Res VfsError Str :=
  if path.head? ≠ some '/' then Res.err .notFound
  else
    let parts := (splitSlash path).foldl pushPart []
    .ok (if parts = [] then ['/'] else parts.flatMap fun part => '/' :: part)

def fileName (path : Str) : Res VfsError Str := do
  let path ← normalizePath path
  .ok ((splitSlash (trimEndSlash path)).getLast?.getD path)

theorem joinPath_plain (h : ∀ p ∈ parts ++ [name], Plain p) :
    joinPath (componentsToPath parts) name = .ok (componentsToPath (parts ++ [name])) := by
  have hname : name.head? ≠ some '/' := fun hh => (h name (by simp)).2.2.2 (mem_of_mem_head? hh)
  have hfront : ∀ p ∈ parts, Plain p := fun p hp => h p (mem_append_left _ hp)
  have hjoin : componentsToPath (parts ++ [name]) = _ := componentsToPath_append name
  rw [joinPath, if_neg hname]
  by_cases hp : parts = []
  · rw [if_pos hp, nil_append] at hjoin
    rw [if_pos (by simp [hp, componentsToPath, joinSlash, trimEndSlash]), ← hjoin]
    exact normal_componentsToPath h
  rw [if_neg hp] at hjoin
  have hroot : ¬ (componentsToPath parts = [] ∨ componentsToPath parts = ['/']) := by
    rintro (he | he)
    · simp [componentsToPath] at he
    · exact hp ((partsOf_componentsToPath hfront).symm.trans (by rw [he]; rfl))
  rw [trimEndSlash_componentsToPath hfront hp, if_neg hroot, ← hjoin]
  exact normal_componentsToPath h

variable {path : Str} (h : path.head? = some '/')
include h

theorem parentPath_of_head : parentPath path = .ok (componentsToPath (partsOf path).dropLast) := by
  have hn := normalizePath_of_head h
  have hq := (normal_of_normalizePath hn).parentPath
  rw [partsOf_componentsToPath fun _ hp => plain_partsOf hp] at hq
  rw [← hq, parentPath, parentPath, hn, normal_of_normalizePath hn]

theorem fileName_of_parts (hp : partsOf path = front ++ [name]) : fileName path = .ok name := by
  have hplain : ∀ p ∈ front ++ [name], Plain p := fun p hm => plain_partsOf (hp ▸ hm)
  rw [fileName, normalizePath_of_head h, hp, Res.ok_bind,
    trimEndSlash_componentsToPath hplain (by simp), splitSlash_componentsToPath hplain (by simp)]
  simp [getLast?_cons]

/-- A path and its normal form: the three agree on it, a step up from the root stays there, and
the parent and the name make up the path again. -/
theorem paths_agree : ∃ q, normalizePath path = .ok q ∧ normalizeProcessPath path = .ok q ∧
    normalizeExt2Path path = .ok q ∧
    (normalizePath q = .ok q ∧ normalizeProcessPath q = .ok q ∧ normalizeExt2Path q = .ok q) ∧
    (['.', '.'] ∉ splitSlash q ∧ q.head? = some '/' ∧ normalizePath ("/..".toList ++ path) = .ok q ∧
      normalizePath (path ++ "/..".toList) = parentPath path) ∧
    (q ≠ ['/'] → (do joinPath (← parentPath path) (← fileName path)) = .ok q) := by
  have hplain : ∀ p ∈ partsOf path, Plain p := fun _ hp => plain_partsOf hp
  have hn := normalizePath_of_head h
  have hq := normal_of_normalizePath hn
  refine ⟨_, hn, hn, normalizeExt2Path_of_head h, ⟨hq, hq, ?_⟩, ⟨?_, rfl, ?_, ?_⟩, ?_⟩
  · rw [normalizeExt2Path_of_head rfl, partsOf_componentsToPath hplain]
  · by_cases hp : partsOf path = []
    · simp [hp, componentsToPath, joinSlash, splitSlash]
    · rw [splitSlash_componentsToPath hplain hp]
      simpa using fun hd => (hplain _ hd).2.2.1 rfl
  · obtain ⟨rest, rfl⟩ : ∃ rest, path = '/' :: rest := by
      cases path <;> simp_all
    rw [normalizePath_of_head rfl, partsOf_append_slash]
    simp [partsOf, splitSlash, pushPart]
  · have hup : (path ++ "/..".toList).head? = some '/' := by simp [h]
    rw [parentPath_of_head h, normalizePath_of_head hup]
    exact congrArg (fun parts => Except.ok (componentsToPath parts)) (partsOf_append_slash path _)
  intro hroot
  rcases eq_nil_or_concat (partsOf path) with hp | ⟨front, name, hp⟩
  · exact absurd (by rw [hp]; rfl) hroot
  rw [concat_eq_append] at hp
  rw [parentPath_of_head h, fileName_of_parts h hp, hp, dropLast_concat]
  exact joinPath_plain (hp ▸ hplain)

omit h in
theorem paths_agree_dots : ∃ q, normalizePath "/a/./../../b".toList = .ok q ∧ q = "/b".toList := by
  have hhead : "/a/./../../b".toList.head? = some '/' := rfl
  obtain ⟨q, hq, -⟩ := paths_agree hhead
  exact ⟨q, hq, Except.ok.inj (hq.symm.trans (by decide +kernel))⟩

end Ristux.Vfs
