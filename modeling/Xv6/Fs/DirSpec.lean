/-
  Directories: what `dirlookup`, `dirlink` and `isdirempty` do.

  A directory node is read as a sequence of entries. The functions of the source that search a
  directory are loops over offsets; here they are searches over entry numbers of the node.
-/
import Xv6.Fs.Room
import Xv6.Fs.Dir

namespace Xv6.Fs

open Lib Act Function List

/-! ## Names -/

/-- The string in a buffer of `n` bytes, from position `i`. -/
def cstr (p : ℕ → UInt8) (n i : ℕ) : List UInt8 := ((List.range' i n).map p).takeWhile (· != 0)

theorem cstr_succ (p : ℕ → UInt8) (n i : ℕ) :
    cstr p (n + 1) i = if p i = 0 then [] else p i :: cstr p n (i + 1) := by
  unfold cstr
  rw [List.range'_succ, map_cons]
  by_cases h : p i = 0
  · rw [if_pos h, takeWhile_cons_of_neg (by simp [h])]
  · rw [if_neg h, takeWhile_cons_of_pos (by simp [h])]

theorem strncmp_iff (p q : ℕ → UInt8) (n i : ℕ) :
    strncmp p q n i = true ↔ cstr p n i = cstr q n i := by
  induction n generalizing i with
  | zero => exact ⟨fun _ => rfl, fun _ => rfl⟩
  | succ n ih =>
    unfold strncmp
    rw [cstr_succ, cstr_succ]
    by_cases hp : p i = 0 <;> by_cases hq : q i = 0
    · simp [hp, hq]
    · have : ¬(0 : UInt8) = q i := fun h => hq h.symm
      simp [hp, hq, this]
    · simp [hp, hq]
    · by_cases hpq : p i = q i
      · rw [if_pos ⟨hp, hpq⟩, ih, if_neg hp, if_neg hq, hpq]
        simp
      · rw [if_neg fun h => hpq h.2, if_neg hp, if_neg hq]
        simp [hpq]

/-- What `namecmp` compares. -/
def nameOf (p : ℕ → UInt8) : List UInt8 := cstr p dirSiz 0

theorem namecmp_iff (p q : ℕ → UInt8) : namecmp p q = true ↔ nameOf p = nameOf q :=
  strncmp_iff p q dirSiz 0

theorem nameOf_congr {p q : ℕ → UInt8} (h : ∀ i, i < dirSiz → p i = q i) : nameOf p = nameOf q := by
  unfold nameOf cstr
  congr 1
  refine map_congr_left fun i hi => h i ?_
  have := mem_range'_1.mp hi
  omega

theorem dot_ne_dotdot : nameOf dot.byte ≠ nameOf dotdot.byte := by decide

/-! ## Entries of a node -/

namespace Node

/-- Number of directory entries. -/
def entries (n : Node) : ℕ := n.size / direntSize

def entry (n : Node) (k : ℕ) : Dirent :=
  .read fun o => if o < direntSize then n.data (direntSize * k + o) else 0

/-- Entry `k` is in use. -/
def Used (n : Node) (k : ℕ) : Prop := k < n.entries ∧ (n.entry k).inum ≠ 0

instance (n : Node) (k : ℕ) : Decidable (n.Used k) := inferInstanceAs (Decidable (_ ∧ _))

/-- The entry that `dirlookup` finds. -/
def lookup (n : Node) (name : Name) : Option ℕ :=
  (List.range n.entries).find? fun k => (n.entry k).inum ≠ 0 && namecmp name.byte (n.entry k).name

/-- The entry that `dirlink` fills: the first one that is not in use, or a new one. -/
def slot (n : Node) : ℕ :=
  ((List.range n.entries).find? fun k => (n.entry k).inum = 0).getD n.entries

/-- Entry `k` becomes `name`, `inum`. -/
def setEntry (n : Node) (k : ℕ) (name : Name) (inum : ℕ) : Node :=
  n.put (direntSize * k) direntSize direntSize (direntBytes name inum)

/-- Entry `k` becomes unused. -/
def clearEntry (n : Node) (k : ℕ) : Node :=
  n.put (direntSize * k) direntSize direntSize fun _ => 0

variable {n : Node} {k j : ℕ} {name : Name}

theorem lookup_some (h : n.lookup name = some k) :
    n.Used k ∧ nameOf name.byte = nameOf (n.entry k).name := by
  have h1 := List.find?_some h
  have h2 := List.mem_range.mp (mem_of_find?_eq_some h)
  simp only [Bool.and_eq_true, decide_eq_true_eq] at h1
  exact ⟨⟨h2, h1.1⟩, (namecmp_iff _ _).mp h1.2⟩

theorem lookup_none (h : n.lookup name = none) (hk : n.Used k) :
    nameOf name.byte ≠ nameOf (n.entry k).name := by
  have h1 := List.find?_eq_none.mp h k (List.mem_range.mpr hk.1)
  simp only [Bool.and_eq_true, decide_eq_true_eq, not_and] at h1
  exact fun h' => h1 hk.2 ((namecmp_iff _ _).mpr h')

theorem slot_le (n : Node) : n.slot ≤ n.entries := by
  unfold slot
  cases h : (List.range n.entries).find? fun k => (n.entry k).inum = 0 with
  | none => exact Nat.le_refl _
  | some k => exact Nat.le_of_lt (List.mem_range.mp (mem_of_find?_eq_some h))

theorem slot_unused (n : Node) : ¬n.Used n.slot := by
  unfold slot
  cases h : (List.range n.entries).find? fun k => (n.entry k).inum = 0 with
  | none => exact fun hu => Nat.lt_irrefl _ hu.1
  | some k =>
    have := List.find?_some h
    exact fun hu => hu.2 (by simpa using this)

theorem Used.ne_slot (h : n.Used k) : k ≠ n.slot := by
  rintro rfl
  exact n.slot_unused h

/-- An entry is read from 16 bytes. -/
theorem read_bytes (n : Node) (k : ℕ) : (Dirent.read fun i => ((List.range direntSize).map
    fun j => n.data (direntSize * k + j)).getD i 0) = n.entry k := by
  congr 1
  funext o
  by_cases ho : o < direntSize
  · rw [if_pos ho, getD_eq_getElem?_getD, List.getElem?_map, List.getElem?_range ho]
    rfl
  · have hnone : (List.range direntSize)[o]? = none :=
      List.getElem?_eq_none (by rw [length_range]; omega)
    rw [if_neg ho, getD_eq_getElem?_getD, List.getElem?_map, hnone]
    rfl

variable {f : ℕ → UInt8}

/-- A changed entry does not touch another one. -/
theorem entry_put_ne {c : ℕ} (h : j ≠ k) :
    (n.put (direntSize * k) c direntSize f).entry j = n.entry j := by
  unfold entry put
  congr 1
  funext o
  by_cases ho : o < direntSize
  · rw [if_pos ho, if_pos ho]
    unfold overlay direntSize at *
    exact if_neg (by omega)
  · rw [if_neg ho, if_neg ho]

theorem entry_put_self {c : ℕ} :
    (n.put (direntSize * k) c direntSize f).entry k = .read fun o =>
      if o < direntSize then f o else 0 := by
  unfold entry put
  congr 1
  funext o
  by_cases ho : o < direntSize
  · rw [if_pos ho, if_pos ho]
    show (if direntSize * k ≤ direntSize * k + o ∧
      direntSize * k + o < direntSize * k + direntSize then
      f (direntSize * k + o - direntSize * k) else _) = f o
    rw [if_pos (by omega), Nat.add_sub_cancel_left]
  · rw [if_neg ho, if_neg ho]

theorem entry_setEntry_ne (h : j ≠ k) (name : Name) (i : ℕ) :
    (n.setEntry k name i).entry j = n.entry j := entry_put_ne h

theorem entry_clearEntry_ne (h : j ≠ k) : (n.clearEntry k).entry j = n.entry j := entry_put_ne h

theorem inum_setEntry (n : Node) (k : ℕ) (name : Name) {i : ℕ} (hi : i < 2 ^ 16) :
    ((n.setEntry k name i).entry k).inum = i := by
  unfold setEntry
  rw [entry_put_self]
  show (UInt8.ofNat i).toNat + 256 * (UInt8.ofNat (i / 256)).toNat = i
  rw [UInt8.toNat_ofNat', UInt8.toNat_ofNat']
  omega

theorem nameOf_setEntry (n : Node) (k : ℕ) (name : Name) (i : ℕ) :
    nameOf ((n.setEntry k name i).entry k).name = nameOf name.byte := by
  unfold setEntry
  rw [entry_put_self]
  refine nameOf_congr fun o ho => ?_
  show (if 2 + o < direntSize then direntBytes name i (2 + o) else 0) = name.byte o
  have h2 : 2 + o < direntSize := by
    unfold dirSiz at ho
    unfold direntSize
    omega
  rw [if_pos h2, Nat.add_comm]
  rfl

theorem inum_clearEntry (n : Node) (k : ℕ) : ((n.clearEntry k).entry k).inum = 0 := by
  unfold clearEntry
  rw [entry_put_self]
  rfl

/-- The length of a directory after entry `k` has been written. -/
theorem size_put (hsize : n.size % direntSize = 0) (hk : k ≤ n.entries) :
    (n.put (direntSize * k) direntSize direntSize f).size % direntSize = 0 ∧
      (n.put (direntSize * k) direntSize direntSize f).entries =
        if k = n.entries then n.entries + 1 else n.entries := by
  unfold entries put at *
  unfold direntSize at *
  dsimp only at *
  split
  · have hk' : k = n.size / 16 := by omega
    rw [if_pos hk', ← hk']
    constructor <;> omega
  · rw [if_neg (by omega)]
    exact ⟨hsize, rfl⟩

end Node

/-! ## Functions -/

section

variable {sb : Super} {s s' : Store} {dp ip : Ptr} {d : ℕ} {n : Node} {L : Multiset Ref}
  {E : Stop → Prop}

/-- An inode that has been read, with its node. -/
structure Open (sb : Super) (s : Store) (ip : Ptr) (d : ℕ) (n : Node) : Prop where
  wf : Wf sb none s
  valid : s.Valid ip
  inum : (s.inode ip).inum = d
  node : s.node d = some n

theorem Holds.open {r : Ref} (h : Holds sb L s) (hr : r ∈ L) (hl : r.loaded = true)
    (hn : s.node r.inum = some n) : Open sb s r.ptr r.inum n :=
  ⟨h.wf, h.valid hr hl, h.inum r hr, hn⟩

namespace Open

section

variable (h : Open sb s dp d n)

include h

theorem fields :
    n = ⟨(s.inode dp).d.type, (s.inode dp).d.major, (s.inode dp).d.minor, (s.inode dp).d.nlink,
      (s.inode dp).d.size, s.byte d⟩ := by
  have := node_of_valid h.wf h.valid
  rw [h.inum, h.node] at this
  exact Option.some.inj this

theorem type_eq : (s.inode dp).d.type = n.type := by rw [h.fields]

theorem size_eq : (s.inode dp).d.size = n.size := by rw [h.fields]

theorem size_le : n.size ≤ maxFile * bSize := by
  rw [← h.size_eq, ← Store.din_of_valid h.wf.uniq h.valid]
  refine h.wf.small _ trivial ?_
  rw [Store.din_of_valid h.wf.uniq h.valid]
  exact h.wf.typed dp h.valid

end

end Open

theorem readDirent_spec (h : Open sb s dp d n) {e : Stop} {k : ℕ} (hk : direntSize * k < n.size)
    (hE : n.size % direntSize ≠ 0 → E e) {Q : Dirent → Store → Prop}
    (hQ : k < n.entries → Q (n.entry k) s) : wp (readDirent sb dp e (direntSize * k)) Q E s := by
  have hsz := h.size_le
  have hM : maxFile * bSize = 274432 := rfl
  have hf := h.fields
  unfold readDirent
  refine wp_seq (readi_spec h.wf h.valid trivial fun r hnone hsome => ?_)
  cases r with
  | none =>
    obtain ⟨t, ht⟩ := hnone rfl
    cases ht
  | some l =>
    have hl := hsome l rfl
    rw [h.size_eq, h.inum] at hl
    by_cases hle : direntSize * k + direntSize ≤ n.size
    · have hlen : readLen n.size (direntSize * k) direntSize = direntSize := by
        unfold readLen
        have h1 : ¬(n.size < direntSize * k ∨
          (direntSize * k + direntSize) % 2 ^ 32 < direntSize * k) := by
          unfold direntSize at *
          omega
        rw [if_neg h1, if_neg (by omega)]
      rw [hlen] at hl
      have hll : l.length = direntSize := by rw [hl, length_map, length_range]
      dsimp only
      rw [if_pos hll]
      have hent : (Dirent.read fun i => l.getD i 0) = n.entry k := by
        rw [hl, ← n.read_bytes, hf]
      rw [hent]
      refine wp_pure.mpr (hQ ?_)
      unfold Node.entries
      unfold direntSize at *
      omega
    · have hmod : n.size % direntSize ≠ 0 := by
        unfold direntSize at *
        omega
      dsimp only
      rw [if_neg]
      · exact hE hmod
      · rw [hl, length_map, length_range]
        unfold readLen
        have h1 : ¬(n.size < direntSize * k ∨
          (direntSize * k + direntSize) % 2 ^ 32 < direntSize * k) := by
          unfold direntSize at *
          omega
        rw [if_neg h1, if_pos (by omega)]
        omega

/-- A search over a range, from `k`. -/
def findFrom (p : ℕ → Bool) (k n : ℕ) : Option ℕ := (List.range' k (n - k)).find? p

theorem findFrom_zero (p : ℕ → Bool) (n : ℕ) : findFrom p 0 n = (List.range n).find? p := by
  unfold findFrom
  rw [Nat.sub_zero, range_eq_range']

theorem findFrom_end (p : ℕ → Bool) {k n : ℕ} (h : n ≤ k) : findFrom p k n = none := by
  unfold findFrom
  rw [Nat.sub_eq_zero_of_le h]
  rfl

theorem findFrom_step (p : ℕ → Bool) {k n : ℕ} (h : k < n) :
    findFrom p k n = if p k = true then some k else findFrom p (k + 1) n := by
  unfold findFrom
  rw [show n - k = n - (k + 1) + 1 by omega, List.range'_succ, List.find?_cons]
  cases p k <;> rfl

variable {Q : Bool → Store → Prop} {name : Name}

theorem lookupLoop_spec (h : Open sb s dp d n) {fuel k : ℕ}
    (hfuel : n.entries + 1 - k ≤ fuel) (hE : n.size % direntSize ≠ 0 → E .dirlookupRead)
    {Q : Option (ℕ × ℕ) → Store → Prop}
    (hQ : Q ((findFrom (fun k => (n.entry k).inum ≠ 0 && namecmp name.byte (n.entry k).name)
      k n.entries).map fun k => ((n.entry k).inum, direntSize * k)) s) :
    wp (lookupLoop sb dp name fuel (direntSize * k)) Q E s := by
  induction fuel generalizing k with
  | zero =>
    rw [findFrom_end _ (by omega)] at hQ
    exact wp_pure.mpr hQ
  | succ fuel ih =>
    refine wp_read ?_
    rw [h.size_eq]
    split
    · next hk =>
      refine wp_seq (readDirent_spec h hk hE fun hlt => ?_)
      rw [findFrom_step _ hlt] at hQ
      split
      · next h0 =>
        rw [if_neg (by simp [h0])] at hQ
        exact ih (by omega) hQ
      · next h0 =>
        split
        · next hname =>
          rw [if_pos (by simp [h0, hname])] at hQ
          exact wp_pure.mpr hQ
        · next hname =>
          rw [if_neg (by simp [hname])] at hQ
          exact ih (by omega) hQ
    · rw [findFrom_end] at hQ
      · exact wp_pure.mpr hQ
      · unfold Node.entries
        unfold direntSize at *
        omega

/-- `dirlookup` takes a reference to the inode it finds. -/
theorem dirlookup_spec (h : Holds sb L s) (ho : Open sb s dp d n)
    (hdir : n.type ≠ .dir → E .notDir) (hmod : n.size % direntSize ≠ 0 → E .dirlookupRead)
    (hE : (∀ e, ∃ r ∈ L, r.ptr = e) → E .noInodes) {Q : Option (Ptr × ℕ) → Store → Prop}
    (hnone : n.lookup name = none → Q none s) (hsome : ∀ k ip s', n.lookup name = some k →
      Holds sb (⟨ip, (n.entry k).inum, false⟩ ::ₘ L) s' → s'.node = s.node → s'.locks = s.locks →
      Q (some (ip, direntSize * k)) s') : wp (dirlookup sb dp name) Q E s := by
  refine wp_read ?_
  rw [ho.type_eq, ho.size_eq]
  by_cases ht : n.type = .dir
  · rw [if_neg (not_not.mpr ht)]
    have hloop : n.lookup name = findFrom
        (fun k => (n.entry k).inum ≠ 0 && namecmp name.byte (n.entry k).name) 0 n.entries :=
      (findFrom_zero ..).symm
    refine wp_seq (lookupLoop_spec (k := 0) ho (Nat.sub_le _ _) hmod ?_)
    rw [← hloop]
    cases hl : n.lookup name with
    | none => exact wp_pure.mpr (hnone hl)
    | some k =>
      exact wp_seq
        (iget_spec h hE fun ip s' h' hn' hk' => wp_pure.mpr (hsome k ip s' hl h' hn' hk'))
  · rw [if_pos ht]
    exact hdir ht

theorem emptyLoop_spec (h : Open sb s dp d n) {fuel k : ℕ} (hk0 : k ≤ n.entries)
    (hfuel : n.entries + 1 - k ≤ fuel) (hE : n.size % direntSize ≠ 0 → E .dirlinkRead)
    {Q : ℕ → Store → Prop}
    (hQ : Q (direntSize * (findFrom (fun k => (n.entry k).inum = 0) k n.entries).getD n.entries)
      s) :
    wp (emptyLoop sb dp fuel (direntSize * k)) Q E s := by
  induction fuel generalizing k with
  | zero => omega
  | succ fuel ih =>
    refine wp_read ?_
    rw [h.size_eq]
    split
    · next hk =>
      refine wp_seq (readDirent_spec h hk hE fun hlt => ?_)
      rw [findFrom_step _ hlt] at hQ
      split
      · next h0 =>
        rw [if_pos (by simp [h0])] at hQ
        exact wp_pure.mpr hQ
      · next h0 =>
        rw [if_neg (by simp [h0])] at hQ
        exact ih hlt (by omega) hQ
    · have hend : n.entries = k := by
        unfold Node.entries at *
        unfold direntSize at *
        omega
      rw [findFrom_end _ (Nat.le_of_eq hend), Option.getD_none, hend] at hQ
      exact wp_pure.mpr hQ

/-- `isdirempty`: no entry behind the first two is in use. -/
theorem emptyFrom_spec (h : Open sb s dp d n) {fuel k : ℕ} (hfuel : n.entries + 1 - k ≤ fuel)
    (hE : n.size % direntSize ≠ 0 → E .isdiremptyReadi)
    (hQ : ∀ b, (b = true ↔ ∀ j, k ≤ j → ¬n.Used j) → Q b s) :
    wp (emptyFrom sb dp fuel (direntSize * k)) Q E s := by
  have hend : n.entries ≤ k → Q true s := fun hle =>
    hQ true ⟨fun _ j hj hu => absurd hu.1 (by omega), fun _ => rfl⟩
  induction fuel generalizing k with
  | zero => exact wp_pure.mpr (hend (by omega))
  | succ fuel ih =>
    refine wp_read ?_
    rw [h.size_eq]
    split
    · next hk =>
      refine wp_seq (readDirent_spec h hk hE fun hlt => ?_)
      split
      · next h0 =>
        have hstep : ∀ b : Bool, (b = true ↔ ∀ j, k + 1 ≤ j → ¬n.Used j) → Q b s := by
          intro b hb
          refine hQ b (hb.trans ⟨fun hj j hkj hu => ?_, fun hj j hkj => hj j (by omega)⟩)
          by_cases hjk : j = k
          · rw [hjk] at hu
            exact hu.2 h0
          · exact hj j (by omega) hu
        refine ih (by omega) hstep fun hle =>
          hstep true ⟨fun _ j hj hu => absurd hu.1 (by omega), fun _ => rfl⟩
      · next h0 =>
        refine wp_pure.mpr (hQ false ⟨fun h' => absurd h' Bool.false_ne_true, fun h' => ?_⟩)
        exact absurd ⟨hlt, h0⟩ (h' k (Nat.le_refl _))
    · refine wp_pure.mpr (hend ?_)
      unfold Node.entries
      unfold direntSize at *
      omega

theorem isdirempty_spec (h : Open sb s dp d n) (hE : n.size % direntSize ≠ 0 → E .isdiremptyReadi)
    (hQ : ∀ b, (b = true ↔ ∀ j, 2 ≤ j → ¬n.Used j) → Q b s) :
    wp (isdirempty sb dp) Q E s := by
  refine wp_read ?_
  rw [h.size_eq, Nat.mul_comm]
  refine emptyFrom_spec h ?_ hE hQ
  exact Nat.sub_le _ _

/-- An entry is written as a whole or not at all. -/
theorem writeEntry_spec (h : Holds sb L s) {r : Ref} (hr : r ∈ L) (hl : r.loaded = true)
    (hn : s.node r.inum = some n) {src : ℕ → UInt8} {k : ℕ} (hk : k ≤ n.entries)
    {Q : Option ℕ → Store → Prop}
    (hfail : ∀ w s', w ≠ some direntSize → ¬s.Room sb r.ptr (direntSize * k) direntSize →
      Holds sb L s' →
      s'.node = s.node → Q w s')
    (hok : ∀ s', s.Room sb r.ptr (direntSize * k) direntSize → Holds sb L s' →
      s'.node = update s.node r.inum
      (some (n.put (direntSize * k) direntSize direntSize src)) → Q (some direntSize) s') :
    wp (writei sb r.ptr src (fun _ => none) (direntSize * k) direntSize) Q E s := by
  have ho := h.open hr hl hn
  refine wp_mono (wp_and (writei_spec ho.wf ho.valid trivial
    (Q := fun w s' => (w = some direntSize ↔ s.Room sb r.ptr (direntSize * k) direntSize) → Q w s')
    (fun _ hiff => hfail none s nofun (fun hr => nomatch hiff.mpr hr) h rfl)
    (fun c m s' _ hcn _ hmc hend _ hw ht hnode hiff => ?_) (by decide))
    (writei_full ho.wf ho.valid trivial (by decide))) (fun _ _ h' => h'.1 h'.2) fun _ he => he
  have hmc := hmc fun _ => rfl
  rw [ho.inum, hn, hmc] at hnode
  by_cases hc : c = direntSize
  · rw [hc] at hnode ⊢
    exact hok s' (hiff.mp (by rw [hc])) (h.same hw ht) hnode
  · have hc0 : c = 0 := by
      unfold bSize direntSize at *
      omega
    rw [hc0] at hnode ⊢
    refine hfail _ s' (by decide) (fun hr => hc ?_) (h.same hw ht) ?_
    · exact Option.some.inj (hiff.mpr hr)
    have hput : n.put (direntSize * k) 0 0 src = n := by
      refine Node.ext rfl rfl rfl rfl ?_ (overlay_zero ..)
      refine if_neg ?_
      unfold Node.entries at hk
      unfold direntSize at *
      omega
    rw [hnode, Option.map_some, hput, ← hn, update_eq_self]

/-- `dirlink`: the name is there, or there is no room, or the entry is written. -/
theorem dirlink_spec (h : Holds sb (⟨dp, d, true⟩ ::ₘ L) s) (hn : s.node d = some n)
    {inum : ℕ} (hdir : n.type ≠ .dir → E .notDir)
    (hmod : n.size % direntSize ≠ 0 → E .dirlookupRead ∧ E .dirlinkRead)
    (hE : (∀ e, ∃ r ∈ ⟨dp, d, true⟩ ::ₘ L, r.ptr = e) → E .noInodes)
    (hblk : ∀ e, s.locks e = true → (∀ r ∈ ⟨dp, d, true⟩ ::ₘ L, r.ptr ≠ e) → E .blocked)

    (hfail : ∀ s', n.lookup name ≠ none ∨ ¬s.Room sb dp (direntSize * n.slot) direntSize →
      Holds sb (⟨dp, d, true⟩ ::ₘ L) s' → s'.node = s.node → Q false s')
    (hfreed : ∀ k m s', n.lookup name = some k → s.node (n.entry k).inum = some m → m.nlink = 0 →
      (∀ r ∈ ⟨dp, d, true⟩ ::ₘ L, r.inum ≠ (n.entry k).inum) → Holds sb (⟨dp, d, true⟩ ::ₘ L) s' →
      s'.node = update s.node (n.entry k).inum none → Q false s')
    (hok : ∀ s', n.lookup name = none → s.Room sb dp (direntSize * n.slot) direntSize →
      Holds sb (⟨dp, d, true⟩ ::ₘ L) s' →
      s'.node = update s.node d (some (n.setEntry n.slot name inum)) → Q true s') :
    wp (dirlink sb dp name inum) Q E s := by
  have hr : (⟨dp, d, true⟩ : Ref) ∈ ⟨dp, d, true⟩ ::ₘ L := Multiset.mem_cons_self _ _
  have ho := h.open hr rfl hn
  refine wp_seq (dirlookup_spec h ho hdir (fun h' => (hmod h').1) hE (fun hl => ?_)
    fun k ip s' hl h' hn' hk' => ?_)
  · refine wp_read ?_
    rw [ho.size_eq]
    refine wp_seq
      (emptyLoop_spec (k := 0) ho (Nat.zero_le _) (Nat.sub_le _ _) (fun h' => (hmod h').2) ?_)
    rw [findFrom_zero]
    show wp _ Q E s
    refine wp_seq
      (writeEntry_spec h hr rfl hn (k := n.slot) n.slot_le (fun w s' hw hr' h' hn' => ?_)
      fun s' hr' h' hn' => ?_)
    · have hf : (w == some direntSize) = false := by simpa using hw
      rw [hf]
      exact wp_pure.mpr (hfail s' (.inr hr') h' hn')
    · exact wp_pure.mpr (hok s' hl hr' h' hn')
  · refine wp_seq (iput_spec h' (fun hk => hblk ip (hk' ▸ hk)) (fun s'' h'' hn'' _ _ => ?_)
      fun s'' m h'' hm hm0 hL hn'' _ => ?_)
    · exact wp_pure.mpr (hfail s'' (.inl (by rw [hl]; exact nofun)) h'' (hn''.trans hn'))
    · rw [hn'] at hm hn''
      refine wp_pure.mpr (hfreed k m s'' hl hm hm0 (fun r hr he => hL r hr ?_) h'' hn'')
      exact h'.ptr_eq (Multiset.mem_cons_of_mem hr)
        (Multiset.mem_cons_self (⟨ip, (n.entry k).inum, false⟩ : Ref) _) he

end

end Xv6.Fs
