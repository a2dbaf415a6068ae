import Ristux.Lib.Rooted
import Ristux.Ext2.DirEntries

-- What path lookup sees of a file system: which inodes are directories, what they contain and
-- where the symbolic links lead. `resolve` is the meaning of a path.

namespace Ristux.Ext2
open Lib List Option

/-- What path lookup sees of an inode. A link that cannot be read is `some none`. -/
structure Node where
  isDir : Bool
  link : Option (Option Str)
  entries : List RawEntry

structure Tree where
  root : ℕ
  node : ℕ → Node

def RawEntry.Dots (e : RawEntry) : Prop := e.name = asBytes dot ∨ e.name = asBytes dotDot

instance (e : RawEntry) : Decidable e.Dots := inferInstanceAs (Decidable (_ ∨ _))

/-- The entries apart from `.` and `..`. -/
def Node.real (n : Node) : List RawEntry := n.entries.filter fun e => ¬e.Dots

namespace Tree

def find (t : Tree) (i : ℕ) (c : Str) : Option ℕ :=
  ((t.node i).real.find? fun e => e.name = asBytes c).map RawEntry.ino

def succ (t : Tree) (i : ℕ) : List ℕ :=
  if (t.node i).isDir then (t.node i).real.map RawEntry.ino else []

def Reach (t : Tree) (i : ℕ) : Prop := Rooted.Reach t.succ t.root i

def walk (t : Tree) (follow : Bool) (restart : List Str → Option ℕ) :
    List Str → List Str → ℕ → Option ℕ
  | _, [], i => some i
  | walked, c :: rest, i =>
    if (t.node i).isDir then
      (t.find i c).bind fun j =>
        match (t.node j).link with
        | some target =>
          if follow ∨ rest ≠ [] then
            target.bind fun target => restart (redirectParts walked target rest)
          else walk t follow restart (walked ++ [c]) rest j
        | none => walk t follow restart (walked ++ [c]) rest j
    else none

/-- The inode a list of components leads to; the number counts the restarts at a symbolic
link that are still allowed. -/
def resolve (t : Tree) (follow : Bool) : ℕ → List Str → Option ℕ
  | 0, _ => none
  | depth + 1, parts => t.walk follow (t.resolve follow depth) [] parts t.root

theorem find_mem {t : Tree} (hfind : t.find i c = some j) : ⟨j, asBytes c⟩ ∈ (t.node i).real := by
  obtain ⟨e, he, rfl⟩ := map_eq_some_iff.1 hfind
  have hname : e.name = asBytes c := by simpa using find?_some he
  rw [← hname]
  exact mem_of_find?_eq_some he

theorem find_succ {t : Tree} (hdir : (t.node i).isDir = true)
    (hfind : t.find i c = some j) : j ∈ t.succ i := by
  rw [succ, if_pos hdir]
  exact List.mem_map.2 ⟨_, find_mem hfind, rfl⟩

variable {restart restart' : List Str → Option ℕ} {i : ℕ}

/-- One induction for everything that is proved along the steps of `walk`: the relation `P`
holds of the outcomes in two trees if every step of the walk in the first is matched in the
second. -/
theorem walk_rel {t t' : Tree} {P : Option ℕ → Option ℕ → Prop} (hnone : ∀ o, P none o)
    (hsome : ∀ i, t.Reach i → P (some i) (some i))
    (hrestart : ∀ parts, P (restart parts) (restart' parts))
    (hdir : ∀ i, t.Reach i → (t'.node i).isDir = (t.node i).isDir)
    (hlink : ∀ i, t.Reach i → (t'.node i).link = (t.node i).link)
    (hfind : ∀ i, t.Reach i → (t.node i).isDir = true → ∀ c j, t.find i c = some j →
      t'.find i c = some j) (walked parts : List Str) (hi : t.Reach i) :
    P (t.walk follow restart walked parts i) (t'.walk follow restart' walked parts i) := by
  induction parts generalizing walked i with
  | nil => exact hsome i hi
  | cons c rest ih =>
    rw [walk, walk, hdir i hi]
    by_cases hd : (t.node i).isDir = true
    · rw [if_pos hd, if_pos hd]
      rcases hf : t.find i c with _ | j
      · exact hnone _
      have hj : t.Reach j := hi.step (find_succ hd hf)
      rw [hfind i hi hd c j hf, bind_some, bind_some, hlink j hj]
      rcases (t.node j).link with _ | target
      · exact ih _ hj
      split_ifs with hfollow
      · rcases target with _ | target
        · exact hnone _
        · exact hrestart _
      · exact ih _ hj
    · rw [if_neg hd]
      exact hnone _

theorem resolve_reach {t : Tree} (h : t.resolve follow depth parts = some i) : t.Reach i := by
  induction depth generalizing parts i with
  | zero => cases h
  | succ depth ih =>
    refine @walk_rel _ (fun _ => none) _ follow t t (fun o _ => ∀ i, o = some i → t.Reach i)
      (by simp) (fun i hi j hj => ?_) (fun parts i hi => ih hi) (fun _ _ => rfl) (fun _ _ => rfl)
      (fun _ _ _ _ _ h => h) [] parts Rooted.reach_root i h
    cases hj
    exact hi

/-- A path that resolves in a part of a tree resolves in the tree, to the same inode. -/
theorem resolve_mono {t t' : Tree} (hroot : t'.root = t.root)
    (hdir : ∀ i, t.Reach i → (t'.node i).isDir = (t.node i).isDir)
    (hlink : ∀ i, t.Reach i → (t'.node i).link = (t.node i).link)
    (hfind : ∀ i, t.Reach i → (t.node i).isDir = true → ∀ c j, t.find i c = some j →
      t'.find i c = some j) (h : t.resolve follow depth parts = some i) :
    t'.resolve follow depth parts = some i := by
  induction depth generalizing parts i with
  | zero => cases h
  | succ depth ih =>
    rw [resolve] at h ⊢
    rw [hroot]
    exact walk_rel (P := fun o o' => ∀ i, o = some i → o' = some i) (by simp)
      (fun i _ j hj => hj) (fun parts i hi => ih hi) hdir hlink hfind [] parts
      Rooted.reach_root i h

section Congr
variable {t t' : Tree} (hroot : t'.root = t.root) (hnode : ∀ i, t.Reach i → t'.node i = t.node i)
include hroot hnode

omit hroot in
theorem succ_congr (hi : t.Reach i) : t'.succ i = t.succ i := by
  rw [succ, succ, hnode i hi]

theorem reach_congr : t'.Reach i ↔ t.Reach i := by
  rw [Reach, hroot]
  exact Rooted.reach_congr fun a ha => succ_congr hnode ha

/-- Lookup depends on the reachable part only. -/
theorem resolve_congr (follow : Bool) (depth : ℕ) (parts : List Str) :
    t'.resolve follow depth parts = t.resolve follow depth parts := by
  have hdir : ∀ i, t.Reach i → (t'.node i).isDir = (t.node i).isDir :=
    fun i hi => by rw [hnode i hi]
  have hlink : ∀ i, t.Reach i → (t'.node i).link = (t.node i).link :=
    fun i hi => by rw [hnode i hi]
  have hfind : ∀ i, t.Reach i → ∀ c, t'.find i c = t.find i c :=
    fun i hi c => by rw [find, find, hnode i hi]
  have hback : ∀ i, t'.Reach i → t.Reach i := fun i hi => (reach_congr hroot hnode).1 hi
  ext i
  constructor
  · exact fun h => resolve_mono hroot.symm (fun i hi => (hdir i (hback i hi)).symm)
      (fun i hi => (hlink i (hback i hi)).symm)
      (fun i hi _ c j hj => (hfind i (hback i hi) c) ▸ hj) h
  · exact fun h => resolve_mono hroot hdir hlink (fun i hi _ c j hj => (hfind i hi c).trans hj) h

end Congr

/-- The last component of a path that is not followed is looked up in the directory that
the rest of the path leads to. -/
theorem walk_append (t : Tree) (c : Str) (hrestart : ∀ parts, restart' (parts ++ [c]) =
      (restart parts).bind fun p => if (t.node p).isDir then t.find p c else none)
    (walked parts : List Str) (i : ℕ) : t.walk false restart' walked (parts ++ [c]) i =
      (t.walk true restart walked parts i).bind fun p =>
        if (t.node p).isDir then t.find p c else none := by
  induction parts generalizing walked i with
  | nil =>
    simp only [nil_append, walk, bind_some]
    by_cases hd : (t.node i).isDir = true
    · rw [if_pos hd, if_pos hd]
      rcases t.find i c with _ | j
      · rfl
      · rw [bind_some]
        rcases (t.node j).link with _ | target <;> simp
    · rw [if_neg hd, if_neg hd]
  | cons b rest ih =>
    rw [cons_append, walk, walk]
    by_cases hd : (t.node i).isDir = true
    · rw [if_pos hd, if_pos hd]
      rcases t.find i b with _ | j
      · rfl
      rw [bind_some, bind_some]
      rcases (t.node j).link with _ | target
      · exact ih _ _
      dsimp only
      rw [if_pos (by simp), if_pos (by simp)]
      rcases target with _ | target
      · rfl
      · rw [bind_some, bind_some, ← hrestart]
        simp only [redirectParts, append_assoc]
    · rw [if_neg hd, if_neg hd]
      rfl

theorem resolve_append (t : Tree) (depth : ℕ) (parts : List Str) (c : Str) :
    t.resolve false depth (parts ++ [c]) = (t.resolve true depth parts).bind fun p =>
      if (t.node p).isDir then t.find p c else none := by
  induction depth generalizing parts with
  | zero => rfl
  | succ depth ih => exact walk_append t c (fun parts => ih parts) [] parts t.root

/-- A path that leads to something else than a symbolic link leads there as well when the
last component is followed. -/
theorem walk_follow (t : Tree) (hlink : (t.node j).link = none)
    (hrestart : ∀ parts, restart parts = some j → restart' parts = some j) (walked parts : List Str)
    (h : t.walk false restart walked parts i = some j) :
    t.walk true restart' walked parts i = some j := by
  induction parts generalizing walked i with
  | nil => exact h
  | cons c rest ih =>
    rw [walk] at h ⊢
    by_cases hd : (t.node i).isDir = true
    · rw [if_pos hd] at h ⊢
      rcases hf : t.find i c with _ | k
      · simp [hf] at h
      rw [hf, bind_some] at h
      rw [bind_some]
      rcases hk : (t.node k).link with _ | target
      · rw [hk] at h
        exact ih _ h
      rw [hk] at h
      dsimp only at h ⊢
      by_cases hrest : rest = []
      · subst hrest
        cases h
        rw [hlink] at hk
        cases hk
      · rw [if_pos (by simp [hrest])] at h ⊢
        rcases target with _ | target
        · cases h
        · exact hrestart _ h
    · rw [if_neg hd] at h
      cases h

theorem resolve_follow (t : Tree) (hlink : (t.node j).link = none)
    (h : t.resolve false depth parts = some j) : t.resolve true depth parts = some j := by
  induction depth generalizing parts with
  | zero => cases h
  | succ depth ih => exact t.walk_follow hlink (fun parts hp => ih hp) [] parts h

end Tree

end Ristux.Ext2
