/-
  Processes, their open files and working directories.

  The references to inodes that exist between the calls are those of the working directories and
  of the open files (`Sys.refs`), and the count of an open file is the number of descriptors that
  point to it. In a consistent system the nodes form a tree, and a node without links is one that a
  process refers to. A run is a sequence of calls by any processes, each executed as a whole.
-/
import Xv6.Fs.Tree
import Xv6.Fs.Sysfile
import Xv6.Fs.Blocks

namespace Xv6.Fs

open Lib Act

/-! ## References of the processes -/

/-- The nodes form a tree, and those without links are referred to. -/
structure Quiet (L : Multiset Ref) (N : ℕ → Option Node) : Prop where
  tree : Tree N
  used : ∀ {i n}, N i = some n → n.nlink = 0 → ∃ r ∈ L, r.inum = i

/-- The references of the processes. -/
structure Good (sb : Super) (L : Multiset Ref) (s : Store) : Prop where
  holds : Holds sb L s
  quiet : Quiet L s.node
  loaded : ∀ r ∈ L, r.loaded = true
  ninodes : sb.ninodes ≤ 2 ^ 16

theorem Good.start {sb : Super} {L : Multiset Ref} {s : Store} (h : Good sb L s) :
    Start L s.node := by
  obtain ⟨n, hn, _, h0⟩ := h.quiet.tree.root
  exact ⟨h.quiet.tree.closed, ⟨n, hn, .inl h0⟩, fun r hr => h.holds.node_loaded hr (h.loaded r hr)⟩

/-- The inode that an entry of the table is for. -/
def Store.num (s : Store) (e : Ptr) : ℕ := (s.inode e).inum

def cwdRef (num : Ptr → ℕ) : Option Ptr → Multiset Ref
  | some e => {⟨e, num e, true⟩}
  | none => 0

def fileRef (num : Ptr → ℕ) (f : File) : Multiset Ref :=
  if f.type = .none then 0 else {⟨f.ip, num f.ip, true⟩}

section

variable {ι : Type} [Fintype ι]

def refsOf (num : Ptr → ℕ) (cwd : ι → Option Ptr) (file : Fin nFile → File) : Multiset Ref :=
  ∑ p, cwdRef num (cwd p) + ∑ f, fileRef num (file f)

/-- The references that the processes hold between the calls. -/
def Sys.refs (t : Sys ι) : Multiset Ref := refsOf t.store.num (fun p => (t.proc p).cwd) t.file

/-! ## Consistent systems -/

/-- The descriptors that point to an open file. -/
def Sys.fds (t : Sys ι) (f : Fin nFile) : Finset (ι × Fin nOFile) :=
  Finset.univ.filter fun x => (t.proc x.1).ofile x.2 = some f

/-- The references are counted, with `own f` descriptors for the open file `f`. -/
structure Counted (sb : Super) (own : Fin nFile → ℕ) (t : Sys ι) : Prop where
  good : Good sb t.refs t.store
  ref : ∀ f, (t.file f).ref = own f
  typed : ∀ f, (t.file f).type = .none ↔ (t.file f).ref = 0

/-- A consistent file system with its processes. -/
def Consistent (sb : Super) (t : Sys ι) : Prop := Counted sb (fun f => (t.fds f).card) t

end

/-! ## Calls -/

/-- The system calls on names and descriptors, with their arguments; a path is none if `argstr`
fails. -/
inductive Call
  | open (path : Option Path) (omode : BitVec 32)
  | mkdir (path : Option Path)
  | mknod (path : Option Path) (major minor : BitVec 16)
  | link (old new : Option Path)
  | unlink (path : Option Path)
  | chdir (path : Option Path)
  | close (fd : Fin nOFile)
  | exit

namespace Call

def paths : Call → List Path
  | .open path _ | mkdir path | mknod path _ _ | unlink path | chdir path => path.toList
  | link old new => old.toList ++ new.toList
  | close _ | exit => []

/-- The paths are strings: they end where `argstr` has found the 0. -/
def Text (call : Call) : Prop := ∀ x ∈ call.paths, (0 : UInt8) ∉ x

instance (call : Call) : Decidable call.Text := inferInstanceAs (Decidable (∀ x ∈ call.paths, _))

variable {ι : Type} [DecidableEq ι]

/-- The call, by process `p` in the directory `c`. -/
def exec (sb : Super) (p : ι) (c : Ptr) : Call → SysM ι Unit
  | .open path omode => do
    let _ ← sysOpen sb p c path omode
    return ()
  | mkdir path => do
    let _ ← onStore (sysMkdir sb c path)
    return ()
  | mknod path major minor => do
    let _ ← onStore (sysMknod sb c path major minor)
    return ()
  | link old new => do
    let _ ← onStore (sysLink sb c old new)
    return ()
  | unlink path => do
    let _ ← onStore (sysUnlink sb c path)
    return ()
  | chdir path => do
    let _ ← sysChdir sb p c path
    return ()
  | close fd => do
    let _ ← sysClose p fd
    return ()
  | exit => kexit p c

/-- The state after a call that does not stop, by a process that has not exited. -/
def step (sb : Super) (t : Sys ι) (e : ι × Call) : Option (Sys ι) :=
  match (t.proc e.1).cwd with
  | none => none
  | some c =>
    if e.2.Text then
      match e.2.exec sb e.1 c t with
      | .ok r => some r.2
      | .error _ => none
    else none

end Call

/-! ## A small system -/

/-- One process in the root directory of the small disk. -/
def rootSystem : Sys Unit where
  store := rootDisk.setInode 0 fun _ => ⟨1, 1, true, false, rootDisk.dinode 1⟩
  file := fun _ => ⟨.none, 0, false, false, 0, 0, 0⟩
  proc := fun _ => ⟨some 0, fun _ => none⟩

theorem rootDisk_root : ∃ n, rootDisk.node 1 = some n ∧ n.type = .dir ∧ n.nlink = 1 ∧ n.size = 32 ∧
    ((n.entry 0).inum = 1 ∧ nameOf (n.entry 0).name = nameOf dot.byte) ∧
    (n.entry 1).inum = 1 ∧ nameOf (n.entry 1).name = nameOf dotdot.byte := by
  have h : (rootDisk.node 1).any (fun n => decide (n.type = .dir ∧ n.nlink = 1 ∧ n.size = 32 ∧
      ((n.entry 0).inum = 1 ∧ nameOf (n.entry 0).name = nameOf dot.byte) ∧
      (n.entry 1).inum = 1 ∧ nameOf (n.entry 1).name = nameOf dotdot.byte)) = true := by
    decide +kernel
  obtain ⟨n, hn, hP⟩ := (Option.any_eq_true ..).mp h
  exact ⟨n, hn, of_decide_eq_true hP⟩

theorem rootDisk_node (hi : i ≠ 1) : rootDisk.node i = none := by
  unfold Store.node
  rw [rootDisk_mounted.wf.din_eq, if_pos (by simp [rootDisk, hi, Dinode.fresh])]

theorem rootDisk_tree : Tree rootDisk.node := by
  obtain ⟨n, hn, ht, hl, hs, h0, h1⟩ := rootDisk_root
  have hone : ∀ {i m}, rootDisk.node i = some m → i = 1 ∧ m = n := by
    intro i m hm
    by_cases hi : i = 1
    · rw [hi, hn] at hm
      exact ⟨hi, (Option.some.inj hm).symm⟩
    · rw [rootDisk_node hi] at hm
      cases hm
  have hent : n.entries = 2 := by
    unfold Node.entries
    rw [hs]
    rfl
  have hused : ∀ {k}, n.Used k → k = 0 ∨ k = 1 := fun hk => by
    have := hk.1
    omega
  have hdots : nameOf (n.entry 0).name ≠ nameOf (n.entry 1).name := by
    rw [h0.2, h1.2]
    exact dot_ne_dotdot
  have hdir : DirOk 1 n := by
    refine ⟨by rw [hs]; rfl, ⟨⟨by omega, by omega⟩, h0⟩, ⟨⟨by omega, by omega⟩, h1.2⟩, ?_, ?_⟩
    · intro k k' hk hk' he
      rcases hused hk with rfl | rfl <;> rcases hused hk' with rfl | rfl
      · rfl
      · exact absurd he hdots
      · exact absurd he.symm hdots
      · rfl
    · intro k hk
      rcases hused hk with rfl | rfl
      · rw [h0.2]
        decide
      · rw [h1.2]
        decide
  refine ⟨rootDisk_node (by decide), fun hd _ => ?_, fun hi => ?_, Links.Ok.bare ?_ ?_ ?_ ?_ ?_⟩
  · obtain ⟨rfl, rfl⟩ := hone hd
    exact hdir
  · obtain ⟨rfl, rfl⟩ := hone hi
    rw [hl]
    decide
  · show (links rootDisk.node).kind 1 = _
    rw [links_kind hn, decide_eq_true ht]
  · show (links rootDisk.node).count 1 = _
    rw [links_count hn, hl]
    rfl
  · show nodeUp (rootDisk.node 1) = 1
    rw [hn]
    exact (if_pos ht).trans h1.1
  · intro i hi
    by_contra h
    exact hi (links_kind_none (rootDisk_node h))
  · intro d k
    cases he : (links rootDisk.node).edge d k with
    | none => rfl
    | some i =>
      obtain ⟨m, hm, _, h2, hk, _⟩ := nodeEdge_some he
      obtain ⟨_, rfl⟩ := hone hm
      have := hused hk
      omega

theorem rootSystem_refs : rootSystem.refs = {⟨0, 1, true⟩} := by
  have hf : ∀ f, fileRef rootSystem.store.num (rootSystem.file f) = 0 := fun _ => rfl
  unfold Sys.refs refsOf
  rw [Finset.sum_eq_zero fun f _ => hf f]
  rfl

theorem rootSystem_holds : Holds rootSuper {⟨0, 1, true⟩} rootSystem.store ∧
    rootSystem.store.node = rootDisk.node := by
  have hne : ∀ {e : Ptr}, e ≠ 0 → (rootSystem.store.inode e).ref = 0 := fun he => by
    unfold rootSystem
    dsimp only
    rw [setInode_ne _ he]
    rfl
  have hzero : ∀ {e}, 0 < (rootSystem.store.inode e).ref → e = 0 := by
    intro e he
    by_contra h
    rw [hne h] at he
    exact Nat.lt_irrefl 0 he
  have hbit : rootSystem.store.bit = rootDisk.bit := rfl
  obtain ⟨hw, hn⟩ := rootDisk_mounted.wf.retable hbit rfl rfl
    (fun e e' h1 h2 _ => (hzero h1).trans (hzero h2).symm)
    (fun e he => by rw [hzero he.1]; rfl) (fun e he => by rw [hzero he.1]; exact nofun)
  refine ⟨⟨hw, fun e => ?_, fun r hr => ?_, fun r hr _ => ?_⟩, hn⟩
  · by_cases he : e = 0
    · rw [he]
      rfl
    · rw [hne he]
      exact (countP_ne (L := 0) (r := ⟨0, 1, true⟩) he).symm
  · rw [Multiset.mem_singleton.mp hr]
    rfl
  · rw [Multiset.mem_singleton.mp hr]
    rfl

theorem rootSystem_consistent : Consistent rootSuper rootSystem := by
  obtain ⟨hh, hn⟩ := rootSystem_holds
  have hfds : ∀ f, (rootSystem.fds f).card = 0 := fun f => by simp [Sys.fds, rootSystem]
  have hgood : Good rootSuper {⟨0, 1, true⟩} rootSystem.store := by
    refine ⟨hh, ⟨by rw [hn]; exact rootDisk_tree, fun {i n} hi h0 => ?_⟩, fun r hr => ?_, by decide⟩
    · rw [hn] at hi
      by_cases h1 : i = 1
      · exact ⟨_, Multiset.mem_singleton_self _, h1.symm⟩
      · rw [rootDisk_node h1] at hi
        cases hi
    · rw [Multiset.mem_singleton.mp hr]
  refine ⟨?_, fun f => (hfds f).symm, fun f => ⟨fun _ => rfl, fun _ => rfl⟩⟩
  rw [rootSystem_refs]
  exact hgood

/-! ## No dangling entries -/

section

variable {ι : Type} [Fintype ι] [DecidableEq ι] {sb : Super} {t : Sys ι}

end

/-! ## Paths to inodes -/

/-! ## Link counts -/

section

variable {ι : Type} [Fintype ι] {sb : Super} {t : Sys ι}

variable [DecidableEq ι]

end

end Xv6.Fs
