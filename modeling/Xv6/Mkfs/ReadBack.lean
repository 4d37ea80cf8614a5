/-
  The kernel reads from the image what `mkfs` was given.

  `dirlookup` goes through the entries of the root directory in the order of the files and stops at
  the name that it looks for, so a block that is missing behind the entries is not reached. The
  first two entries are `.` and `..`: a file with one of these names cannot be found.
-/
import Xv6.Fs.PathSpec
import Xv6.Mkfs.Image

namespace Xv6.Mkfs

open Fs Lib Act Function

variable {m : Mk} {i k : ℕ} {F : Stop → Prop} {files : List HostFile} {img : Image} {s : Store}

/-- Look a name up in the root directory. -/
def findFile (sb : Super) (name : Name) : FsM (Option Ptr) := do
  let dp ← iget rootIno
  ilock dp
  let r ← dirlookup sb dp name
  return r.map Prod.fst

/-- Number and bytes of the file that has a name in the root directory. -/
def readFile (sb : Super) (name : Name) : FsM (Option (ℕ × List UInt8)) := do
  let r ← findFile sb name
  match r with
  | some ip => do
    ilock ip
    let s ← get
    let l ← readi sb ip (fun _ => true) 0 (s.inode ip).d.size
    return l.map fun l => ((s.inode ip).inum, l)
  | none => return none

/-! ## Names -/

theorem HostFile.zero_not_mem (f : HostFile) : (0 : UInt8) ∉ f.shortname := by
  have huser : (0 : UInt8) ∉ stripUser f.path := by
    unfold stripUser
    intro h
    split at h
    · exact f.path_ne 0 (List.mem_of_mem_drop h) rfl
    · exact f.path_ne 0 h rfl
  unfold shortname stripUnderscore
  intro h
  split at h
  · rename_i name hname
    rw [hname] at huser
    exact huser (List.mem_cons_of_mem _ h)
  · exact huser h

theorem dirents_get (hk : k < files.length) :
    (dirents files)[k + 2]? = some (files[k].shortname, k + 2) := by
  simp [dirents, hk]

/-- The entries in front of that of file `k` have other names. -/
theorem dirents_ne (hk : k < files.length)
    (hdots : files[k].shortname ≠ dot ∧ files[k].shortname ≠ dotdot)
    (hnodup : (files.map HostFile.shortname).Nodup)
    (hlen : ∀ f ∈ files, f.shortname.length ≤ dirSiz) {j : ℕ}
    (hj : j < k + 2) {e : Name × ℕ} (he : (dirents files)[j]? = some e) :
    nameOf e.1.byte ≠ files[k].shortname ∧ e.2 ≠ 0 := by
  match j with
  | 0 =>
    cases he
    have hdot : nameOf dot.byte = dot := by decide
    rw [hdot]
    exact ⟨hdots.1.symm, by decide⟩
  | 1 =>
    cases he
    have hdotdot : nameOf dotdot.byte = dotdot := by decide
    rw [hdotdot]
    exact ⟨hdots.2.symm, by decide⟩
  | j + 2 =>
    have hjk : j < k := by omega
    have hjl : j < files.length := hjk.trans hk
    rw [dirents_get hjl] at he
    cases he
    rw [nameOf_byte (hlen _ (List.getElem_mem hjl)) files[j].zero_not_mem]
    refine ⟨fun heq => ?_, Nat.succ_ne_zero _⟩
    have hinj : (⟨j, by simp; omega⟩ : Fin (files.map HostFile.shortname).length) =
        ⟨k, by simp [hk]⟩ :=
      List.nodup_iff_injective_get.mp hnodup (by simpa using heq)
    have := Fin.mk.inj hinj
    omega

/-! ## The root directory -/

/-- The root directory of a finished image has been opened. -/
structure RootOpen (files : List HostFile) (m : Mk) (n : Node) (s : Store) : Prop where
  built : Built files m
  wf : WfOn (· ≠ rootIno) sup none s
  entry : s.inode 0 = ⟨rootIno, 1, true, true, Dinode.rounded (m.img.dinode superBlock rootIno)⟩
  own : s.own = (m.view emptyTable).own
  block : s.block = (m.view emptyTable).block
  node : m.node rootIno = some n
  lists : Lists n (dirents files)

theorem node_data {n : Node} (hn : m.node i = some n) : n.data = (m.view emptyTable).byte i := by
  unfold Mk.node Store.node at hn
  split at hn
  · cases hn
  · cases hn
    rfl

theorem roundSize_gt (size : ℕ) : size < roundSize size := by
  unfold roundSize bSize
  omega

namespace RootOpen

variable {n : Node}

section

variable (h : RootOpen files m n s)

include h

theorem valid : s.Valid 0 := by
  unfold Store.Valid
  rw [h.entry]
  exact ⟨Nat.zero_lt_one, rfl⟩

theorem size_eq : (s.inode 0).d.size = roundSize (direntSize * (files.length + 2)) := by
  rw [h.entry, ← h.built.root_dinode.2]
  rfl

/-- The blocks below the last entry are there. -/
theorem covered {o : ℕ} (ho : o < direntSize * (files.length + 2)) :
    o / bSize < maxFile ∧ s.own (rootIno, .ofBlock (o / bSize)) ≠ 0 := by
  obtain ⟨ht, hsize⟩ := h.built.root_dinode
  have hlen := h.built.count
  have hN : nInodes = 200 := rfl
  have hw := h.built.ok.wf
  constructor
  · unfold direntSize bSize maxFile nDirect nIndirect at *
    omega
  · rw [h.own]
    refine hw.holes rootIno _ trivial ?_ ?_
    · rw [hw.din_eq]
      exact fun hc => nomatch ht.symm.trans hc
    · rw [hw.din_eq]
      change o / bSize * bSize < (m.img.dinode superBlock rootIno).size
      rw [hsize]
      exact Nat.lt_of_le_of_lt (Nat.div_mul_le_self o bSize) ho

theorem byte_eq : s.byte = (m.view emptyTable).byte := Store.byte_congr h.own h.block

theorem readDirent_spec {j : ℕ} (hj : j < files.length + 2) {e : Stop}
    {Q : Dirent → Store → Prop} (hQ : Q (n.entry j) s) :
    wp (readDirent sup 0 e (direntSize * j)) Q F s := by
  have hlen := h.built.count
  have hN : nInodes = 200 := rfl
  have hD : direntSize = 16 := rfl
  have hend : direntSize * j + direntSize ≤ direntSize * (files.length + 2) := by
    rw [hD]
    omega
  unfold readDirent
  refine wp_seq (readi_covered h.wf h.valid (by rw [hD]; omega) ?_ (fun o _ ho => ?_) ?_)
  · rw [h.size_eq]
    have := roundSize_gt (direntSize * (files.length + 2))
    omega
  · rw [h.entry]
    exact h.covered (by omega)
  · dsimp only
    rw [if_pos (by rw [List.length_map, List.length_range]), h.entry, h.byte_eq, ← node_data h.node]
    refine wp_pure.mpr ?_
    rw [n.read_bytes]
    exact hQ

/-- The search for file `k`, from entry `j`. -/
theorem lookupLoop_spec (hk : k < files.length)
    (hdots : files[k].shortname ≠ dot ∧ files[k].shortname ≠ dotdot)
    (hnodup : (files.map HostFile.shortname).Nodup) {fuel j : ℕ} (hj : j ≤ k + 2)
    (hfuel : k + 2 < fuel + j)
    {Q : Option (ℕ × ℕ) → Store → Prop} (hQ : Q (some (k + 2, direntSize * (k + 2))) s) :
    wp (lookupLoop sup 0 files[k].shortname fuel (direntSize * j)) Q F s := by
  have hname : nameOf files[k].shortname.byte = files[k].shortname :=
    nameOf_byte (h.built.names _ (List.getElem_mem hk)) files[k].zero_not_mem
  induction fuel generalizing j with
  | zero => omega
  | succ fuel ih =>
    have hjl : j < (dirents files).length := by
      rw [length_dirents]
      omega
    have hlt : direntSize * j < (s.inode 0).d.size := by
      rw [length_dirents] at hjl
      rw [h.size_eq]
      have := roundSize_gt (direntSize * (files.length + 2))
      unfold direntSize at *
      omega
    have hinum := h.lists.inum j hjl
    have hent := h.lists.name j hjl
    have hget : (dirents files)[j]? = some (dirents files)[j] := List.getElem?_eq_getElem hjl
    refine wp_read ?_
    rw [if_pos hlt]
    refine wp_seq (h.readDirent_spec (by omega) ?_)
    by_cases hjk : j = k + 2
    · subst hjk
      have he : (dirents files)[k + 2] = (files[k].shortname, k + 2) := by
        rw [dirents_get hk] at hget
        exact (Option.some.inj hget).symm
      rw [he] at hinum hent
      have hcmp : namecmp files[k].shortname.byte (n.entry (k + 2)).name = true :=
        (namecmp_iff _ _).mpr hent.symm
      rw [hinum, if_neg (Nat.succ_ne_zero _), if_pos hcmp]
      exact wp_pure.mpr hQ
    · obtain ⟨hne, h0⟩ := dirents_ne hk hdots hnodup h.built.names (by omega) hget
      have hcmp : ¬namecmp files[k].shortname.byte (n.entry j).name = true := by
        rw [namecmp_iff, hent, hname]
        exact hne.symm
      rw [hinum, if_neg h0, if_neg hcmp]
      have hnext : direntSize * j + direntSize = direntSize * (j + 1) := by
        rw [Nat.mul_add, Nat.mul_one]
      rw [hnext]
      exact ih (by omega) (by omega)

/-- A search for `.` ends at the first entry. -/
theorem lookupLoop_dot {fuel : ℕ} {Q : Option (ℕ × ℕ) → Store → Prop}
    (hQ : Q (some (rootIno, 0)) s) : wp (lookupLoop sup 0 dot (fuel + 1) 0) Q F s := by
  have hj : 0 < (dirents files).length := Nat.zero_lt_succ _
  have hinum : (n.entry 0).inum = rootIno := h.lists.inum 0 hj
  have hname : nameOf (n.entry 0).name = nameOf dot.byte := h.lists.name 0 hj
  have hlt : 0 < (s.inode 0).d.size := by
    rw [h.size_eq]
    exact Nat.lt_of_le_of_lt (Nat.zero_le _) (roundSize_gt _)
  refine wp_read ?_
  rw [if_pos hlt]
  refine wp_seq (h.readDirent_spec (j := 0) (by omega) ?_)
  rw [hinum, if_neg (by decide), if_pos ((namecmp_iff _ _).mpr hname.symm)]
  exact wp_pure.mpr hQ

/-- `dirlookup`, once the search is known. -/
theorem dirlookup_spec {name : Name} {r : ℕ × ℕ} {Q : Option Ptr → Store → Prop}
    (hloop : ∀ (fuel : ℕ) (R : Option (ℕ × ℕ) → Store → Prop), files.length + 2 < fuel →
      R (some r) s →
      wp (lookupLoop sup 0 name fuel 0) R F s)
        (hget : wp (iget r.1) (fun ip s' => Q (some ip) s') F s) :
    wp (dirlookup sup 0 name >>= fun r => pure (r.map Prod.fst)) Q F s := by
  have htype : (s.inode 0).d.type = .dir := by
    rw [h.entry]
    exact h.built.root_dinode.1
  refine wp_seq (wp_read ?_)
  rw [if_neg (not_not.mpr htype)]
  refine wp_seq (hloop _ _ ?_ ?_)
  · rw [h.size_eq]
    have := roundSize_gt (direntSize * (files.length + 2))
    unfold direntSize at *
    omega
  · exact wp_seq (wp_mono hget (fun ip s' hq => wp_pure.mpr (wp_pure.mpr hq)) fun _ he => he)

end

end RootOpen

/-- The root directory of a finished image is opened. -/
theorem Built.open_root {α : Type} (h : Built files m) {f : Ptr → FsM α} {Q : α → Store → Prop}
    (hQ : ∀ n s, RootOpen files m n s → s.inode = tableOf rootIno (s.dinode rootIno) →
      s.dinode = m.finish.img.mount.dinode → wp (f 0) Q F s) :
    wp (iget rootIno >>= fun ip => ilock ip >>= fun _ => f ip) Q F m.finish.img.mount := by
  have hs := h.mount
  have hdin : m.finish.img.mount.dinode rootIno = Dinode.rounded
      (m.img.dinode superBlock rootIno) := by
    rw [hs.dinode, update_self]
  have ht : (m.finish.img.mount.dinode rootIno).type ≠ .free := by
    rw [hdin]
    exact fun hc => nomatch h.root_dinode.1.symm.trans hc
  have hw : WfOn (· ≠ rootIno) sup none m.finish.img.mount := hs.wfOn h.ok.wf fun hc =>
    absurd rfl hc
  obtain ⟨h1, -, -⟩ := opened_wf hw ht
  obtain ⟨n, hn, -, hl⟩ := h.root
  refine open_spec hs.inode ht (hQ n _ ⟨h, h1, ?_, ?_, hs.block, hn, hl⟩ rfl rfl)
  · rw [← hdin]
    rfl
  · rw [h1.own_eq, ← hs.refers h.ok.wf]
    rfl

/-! ## Files -/

/-- A second inode gets the second entry of the table. -/
theorem iget_second {d : Dinode} (hs : s.inode = tableOf rootIno d) (hi : i ≠ rootIno) :
    iget i s = .ok (1, { s with
      inode := update (tableOf rootIno d) 1 ⟨i, 1, false, false, .fresh .free⟩ }) := by
  refine wp_eq_ok (wp_read ?_)
  have h1 : ((List.finRange nInode).find? fun e => 0 < (s.inode e).ref && (s.inode e).inum == i) =
      none := by
    refine List.find?_eq_none.mpr fun e _ => ?_
    rw [hs]
    by_cases he : e = 0
    · rw [he]
      simp [tableOf, hi.symm]
    · simp [tableOf, update_of_ne he, emptyTable]
  have h2 : ((List.finRange nInode).find? fun e => (s.inode e).ref == 0) = some 1 := by
    rw [hs]
    rfl
  rw [h1]
  rw [h2]
  refine wp_seq (wp_set.mpr (wp_pure.mpr ⟨rfl, ?_⟩))
  unfold Store.setInode
  rw [hs]
  rfl

/-- Root directory and file `i` are in the table. -/
def twoOpen (s : Store) (i : ℕ) : Store :=
  { s with inode := update s.inode 1 ⟨i, 1, true, true, s.dinode i⟩ }

theorem twoOpen_one (s : Store) (i : ℕ) :
    (twoOpen s i).inode 1 = ⟨i, 1, true, true, s.dinode i⟩ := by
  unfold twoOpen
  dsimp only
  rw [update_self]

theorem twoOpen_ne (s : Store) (i : ℕ) {e : Ptr} (he : e ≠ 1) :
    (twoOpen s i).inode e = s.inode e := by
  unfold twoOpen
  dsimp only
  rw [update_of_ne he]

theorem twoOpen_wf {n : Node} (h : RootOpen files m n s) (ht : (s.dinode i).type ≠ .free)
    (hs : s.inode = tableOf rootIno (s.dinode rootIno)) (hi : i ≠ rootIno) :
    WfOn (· ≠ rootIno) sup none (twoOpen s i) ∧ (twoOpen s i).own = s.own := by
  have h0 : (twoOpen s i).inode 0 = s.inode 0 := twoOpen_ne s i (by decide)
  have h1 := twoOpen_one s i
  have hz : ∀ e, 0 < ((twoOpen s i).inode e).ref → e = 0 ∨ e = 1 := by
    intro e he
    by_contra hne
    rw [not_or] at hne
    rw [twoOpen_ne s i hne.2, hs] at he
    change 0 < (update emptyTable 0 _ e).ref at he
    rw [update_of_ne hne.1] at he
    exact Nat.lt_irrefl 0 he
  have hclean := h.wf.clean_of_valid h.valid
  have htyped := h.wf.typed 0 h.valid
  suffices hw : WfOn (· ≠ rootIno) sup none (twoOpen s i) by
    refine ⟨hw, ?_⟩
    rw [hw.own_eq, h.wf.own_eq]
    rfl
  have hbit : (twoOpen s i).bit = s.bit := rfl
  refine (h.wf.retable hbit rfl rfl (fun e e' he he' heq => ?_) (fun e he => ?_) fun e he => ?_).1
  · rcases hz e he with rfl | rfl <;> rcases hz e' he' with rfl | rfl
    · rfl
    · rw [h0, h1, h.entry] at heq
      exact absurd heq.symm hi
    · rw [h0, h1, h.entry] at heq
      exact absurd heq hi
    · rfl
  · rcases hz e he.1 with rfl | rfl
    · rw [h0]
      exact hclean
    · rfl
  · rcases hz e he.1 with rfl | rfl
    · rw [h0]
      exact htyped
    · rw [h1]
      exact ht

/-- **`mkfs` and the kernel agree.** For every list of files that `mkfs` accepts, with distinct
names other than `.` and `..`, the kernel finds each file under its name in the root directory of
the image, and reads its bytes. -/
theorem mkfs_read_back (hrun : makeImage files = .ok img) (hlen : files.length ≤ nInodes - 2)
    (hnodup : (files.map HostFile.shortname).Nodup)
    (hdots : ∀ f ∈ files, f.shortname ≠ dot ∧ f.shortname ≠ dotdot) (hk : k < files.length) :
    ∃ s', readFile (SuperBlock.read (img 1)).toSuper files[k].shortname img.mount =
      .ok (some (k + 2, files[k].data), s') := by
  obtain ⟨m, h, rfl⟩ := makeImage_ok hrun (by omega)
  obtain ⟨nf, hnf, htf, hbf⟩ := h.file k hk
  obtain ⟨hlive, -, hsize⟩ := h.ok.node_some hnf
  have hki : k + 2 ≠ rootIno := by
    unfold rootIno
    omega
  have hs := h.mount
  have hdin : m.finish.img.mount.dinode (k + 2) = m.img.dinode superBlock (k + 2) := by
    rw [hs.dinode, update_of_ne hki]
  rw [h.read_super]
  suffices hwp : wp (readFile sup files[k].shortname) (fun r _ => r = some (k + 2, files[k].data))
      (fun _ => False) m.finish.img.mount by
    obtain ⟨r, s', hr, rfl⟩ := wp_returns hwp
    exact ⟨s', hr⟩
  refine wp_seq (h.open_root fun n s ho hin hd => ?_)
  refine ho.dirlookup_spec (r := (k + 2, direntSize * (k + 2)))
    (fun fuel R hfuel hR => ho.lookupLoop_spec hk (hdots _ (List.getElem_mem hk)) hnodup (j := 0)
      (Nat.zero_le _) (by omega) hR) (wp_of_ok (iget_second hin hki) ?_)
  have ht : (s.dinode (k + 2)).type ≠ .free := by
    rw [hd, hdin]
    exact hlive
  -- the file is locked and read
  refine wp_seq (wp_of_ok (ilock_fresh (i := k + 2) rfl ht) ?_)
  rw [update_idem, ← hin]
  obtain ⟨hw, hown⟩ := twoOpen_wf ho ht hin hki
  have hone := twoOpen_one s (k + 2)
  have hv : (twoOpen s (k + 2)).Valid 1 := by
    unfold Store.Valid
    rw [hone]
    exact ⟨Nat.zero_lt_one, rfl⟩
  have hsz : (s.dinode (k + 2)).size = nf.size := by rw [hd, hdin, hsize]
  have hbyte : (twoOpen s (k + 2)).byte (k + 2) = nf.data := by
    rw [node_data hnf, Store.byte_congr (hown.trans ho.own) ho.block]
  change wp (get >>= fun s => readi sup 1 (fun _ => true) 0 (s.inode 1).d.size >>= fun l =>
    pure (l.map fun l => ((s.inode 1).inum, l))) _ _ (twoOpen s (k + 2))
  refine wp_read (wp_seq (readi_spec hw hv (by rw [hone]; exact hki) fun r hnone hsome => ?_))
  cases r with
  | none =>
    obtain ⟨t, ht⟩ := hnone rfl
    cases ht
  | some l =>
    have hl := hsome l rfl
    rw [hone] at hl ⊢
    have hlen' : readLen nf.size 0 nf.size = nf.size := by
      unfold readLen
      rw [if_neg (by omega), if_neg (by omega)]
    dsimp only at hl
    rw [hsz, hlen', hbyte] at hl
    have hdata : l = files[k].data := by
      rw [hl, ← hbf]
      unfold Node.bytes
      simp only [Nat.zero_add]
    refine wp_pure.mpr ?_
    rw [hdata]
    rfl

/-- A file of 13 blocks, one more than an inode addresses directly. -/
def longFile : HostFile where
  path := [108, 111, 110, 103]
  chunks := List.replicate 13 (List.replicate 1024 7)
  path_ne := by decide +kernel
  chunk_pos c hc := by
    rw [List.eq_of_mem_replicate hc, List.length_replicate]
    decide
  chunk_le c hc := by
    rw [List.eq_of_mem_replicate hc, List.length_replicate]
    decide

theorem mkfs_read_back_two : ∃ img s s', makeImage [catFile, longFile] = .ok img ∧
    readFile (SuperBlock.read (img 1)).toSuper [99, 97, 116] img.mount =
      .ok (some (2, [1, 2, 3]), s) ∧
    readFile (SuperBlock.read (img 1)).toSuper [108, 111, 110, 103] img.mount =
      .ok (some (3, longFile.data), s') ∧ nDirect * bSize < longFile.data.length := by
  have hlen : longFile.data.length = 13 * 1024 := by
    unfold HostFile.data longFile
    rw [List.length_flatten, List.map_replicate, List.length_replicate]
    rfl
  have hall : ∀ f ∈ [catFile, longFile], f.Accepted := by
    intro f hf
    rcases List.mem_pair.mp hf with rfl | rfl
    · exact ⟨by decide, by decide, by decide +kernel⟩
    · exact ⟨by decide, by decide, by rw [hlen]; decide⟩
  obtain ⟨img, hrun⟩ : ∃ img, makeImage [catFile, longFile] = .ok img :=
    makeImage_returns (by decide) hall (by decide +kernel)
  have hback {k} := mkfs_read_back (k := k) hrun (by decide) (by decide +kernel) (by decide +kernel)
  obtain ⟨s, hs⟩ := hback (show 0 < [catFile, longFile].length by decide)
  obtain ⟨s', hs'⟩ := hback (show 1 < [catFile, longFile].length by decide)
  exact ⟨img, s, s', hrun, hs, hs', by rw [hlen]; decide⟩

/-- `_.` with one byte. -/
def dotFile : HostFile := ⟨[95, 46], [[1]], by decide +kernel, by decide, by decide +kernel⟩

/-- The file `_.` gets the name `.`, under which the kernel finds the root directory. -/
theorem dot_file_not_found : dotFile.shortname = dot ∧ ∃ img ip s', makeImage [dotFile] = .ok img ∧
    findFile (SuperBlock.read (img 1)).toSuper dot img.mount = .ok (some ip, s') ∧
    (s'.inode ip).inum = rootIno ∧ rootIno ≠ 2 := by
  have hall : ∀ f ∈ [dotFile], f.Accepted := by
    intro f hf
    rw [List.mem_singleton.mp hf]
    exact ⟨by decide, by decide, by decide +kernel⟩
  obtain ⟨img, hrun⟩ : ∃ img, makeImage [dotFile] = .ok img :=
    makeImage_returns (by decide) hall (by decide +kernel)
  obtain ⟨m, h, rfl⟩ := makeImage_ok hrun (by decide)
  suffices hwp :
    wp (findFile sup dot) (fun r s' => ∃ ip, r = some ip ∧ (s'.inode ip).inum = rootIno)
      (fun _ => False) m.finish.img.mount by
    obtain ⟨r, s', hr, ip, rfl, hip⟩ := wp_returns hwp
    refine ⟨by decide, _, ip, s', hrun, ?_, hip, by decide⟩
    rw [h.read_super]
    exact hr
  refine h.open_root fun n s ho hin hd => ?_
  refine ho.dirlookup_spec (r := (rootIno, 0)) (fun fuel R hfuel hR => ?_) ?_
  · obtain ⟨fuel, rfl⟩ : ∃ f, fuel = f + 1 := ⟨fuel - 1, by omega⟩
    exact ho.lookupLoop_dot hR
  · refine wp_read ?_
    have hfind :
      ((List.finRange nInode).find? fun e => 0 < (s.inode e).ref && (s.inode e).inum == rootIno) =
        some 0 := by
      rw [hin]
      rfl
    rw [hfind]
    refine wp_seq (wp_set.mpr (wp_pure.mpr ⟨0, rfl, ?_⟩))
    unfold Store.setInode
    dsimp only
    rw [update_self, ho.entry]

end Xv6.Mkfs
