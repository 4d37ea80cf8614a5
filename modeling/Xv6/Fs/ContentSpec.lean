/-
  The content of inodes: what `readi` and `writei` do.

  In a state without holes `readi` changes nothing and returns the bytes of the node. `writei`
  replaces bytes of one node: those that it reports, and possibly some more if a copy from user
  memory fails in the middle of a chunk.
-/
import Xv6.Fs.TableSpec

namespace Xv6.Fs

open Lib Act Function Option

variable {H : ℕ → Prop} {sb : Super} {x : Option Ptr} {s s' s'' : Store} {ip : Ptr}
  {E : Stop → Prop}

/-! ## Reading -/

theorem range_map_add {α : Type} (f : ℕ → α) (a b : ℕ) :
    (List.range a).map f ++ (List.range b).map
      (fun j => f (a + j)) = (List.range (a + b)).map f := by
  rw [List.range_add, List.map_append, List.map_map]
  rfl

variable {Q : Option (List UInt8) → Store → Prop} {off : ℕ} {copy : ℕ → Bool} {f : ℕ → UInt8}

/-- A chunk lies in one block. -/
theorem chunk_div {m j : ℕ} (hm : m ≤ bSize - off % bSize) (hj : j < m) :
    (off + j) / bSize = off / bSize ∧ (off + j) % bSize = off % bSize + j := by
  unfold bSize at *
  omega

theorem div_lt_maxFile (h : off < maxFile * bSize) : off / bSize < maxFile :=
  Nat.div_lt_of_lt_mul (by rw [Nat.mul_comm]; exact h)

/-- The loop of `readi` over blocks that are there. -/
theorem readLoop_covered (h : WfOn H sb none s) (hv : s.Valid ip) {n fuel tot : ℕ}
    {acc : List UInt8} (hfuel : n - tot ≤ fuel) (hcov : ∀ o, off ≤ o → o < off + (n - tot) →
      o / bSize < maxFile ∧ s.own ((s.inode ip).inum, .ofBlock (o / bSize)) ≠ 0)
    (hQ : ∀ r, (r = none → ∃ t, copy t = false) → (∀ l, r = some l →
        l = acc ++ (List.range (n - tot)).map fun j => s.byte (s.inode ip).inum (off + j)) →
          Q r s) :
    wp (readLoop sb ip copy n fuel tot off acc) Q E s := by
  have hdone : n - tot = 0 → Q (some acc) s := by
    intro h0
    refine hQ _ nofun fun l hl => ?_
    rw [h0, List.range_zero, List.map_nil, List.append_nil]
    exact (some.inj hl).symm
  induction fuel generalizing tot off acc with
  | zero => exact wp_pure.mpr (hdone (Nat.le_zero.mp hfuel))
  | succ fuel ih =>
    unfold readLoop
    split
    · obtain ⟨hbn, hown⟩ := hcov off (Nat.le_refl _) (by omega)
      refine wp_seq (bmap_spec (h.dirty _) hv hbn fun addr s' _ haddr _ hsame => ?_)
      obtain ⟨ha0, rfl⟩ := hsame hown
      have haddr := haddr ha0
      rw [if_neg ha0]
      refine wp_read ?_
      dsimp only
      generalize hm : min (n - tot) (bSize - off % bSize) = m
      have hm2 : m ≤ bSize - off % bSize := hm ▸ Nat.min_le_right _ _
      have hm0 : 0 < m := by
        have : off % bSize < bSize := Nat.mod_lt _ (by decide)
        omega
      -- the chunk that is copied
      have hchunk : ((List.range m).map fun j => s'.block addr (off % bSize + j)) =
          (List.range m).map fun j => s'.byte (s'.inode ip).inum (off + j) := by
        refine List.map_congr_left fun j hj => ?_
        obtain ⟨h1, h2⟩ := chunk_div hm2 (List.mem_range.mp hj)
        unfold Store.byte
        rw [h1, h2, haddr, if_neg ha0]
      rw [hchunk]
      split
      · have hsum : m + (n - (tot + m)) = n - tot := by omega
        refine ih (by omega) (fun o h1 h2 => hcov o (by omega) (by omega))
          (fun r h1 h2 => hQ r h1 fun l hl => ?_) fun h0 => ?_
        · rw [h2 l hl, List.append_assoc, ← hsum, ← range_map_add]
          simp only [Nat.add_assoc]
        · refine hQ _ nofun fun l hl => ?_
          have hmn : n - tot = m := by omega
          rw [hmn]
          exact (some.inj hl).symm
      · next hc =>
        exact wp_pure.mpr (hQ none (fun _ => ⟨tot, by simpa using hc⟩) fun l hl => nomatch hl)
    · exact wp_pure.mpr (hdone (by omega))

theorem readLoop_spec (h : WfOn H sb none s) (hv : s.Valid ip) (hH : H (s.inode ip).inum)
    {n fuel tot : ℕ}
    {acc : List UInt8} (hfuel : n - tot ≤ fuel) (hle : off + (n - tot) ≤ (s.inode ip).d.size)
    (hQ : ∀ r, (r = none → ∃ t, copy t = false) → (∀ l, r = some l →
        l = acc ++ (List.range (n - tot)).map fun j => s.byte (s.inode ip).inum (off + j)) →
          Q r s) :
    wp (readLoop sb ip copy n fuel tot off acc) Q E s := by
  have hdv := Store.din_of_valid h.uniq hv
  have hlive : (s.din (s.inode ip).inum).type ≠ .free := by
    rw [hdv]
    exact h.typed ip hv
  have hsmall : (s.inode ip).d.size ≤ maxFile * bSize := by
    rw [← hdv]
    exact h.small _ hH hlive
  refine readLoop_covered h hv hfuel (fun o _ ho => ⟨div_lt_maxFile (by omega), ?_⟩) hQ
  refine h.holes _ _ hH hlive ?_
  rw [hdv]
  exact Nat.lt_of_le_of_lt (Nat.div_mul_le_self o bSize) (by omega)

/-- How many bytes `readi` reads. -/
def readLen (size off n : ℕ) : ℕ :=
  if size < off ∨ (off + n) % 2 ^ 32 < off then 0 else if size < off + n then size - off else n

/-- `readi` changes nothing. -/
theorem readi_spec (h : WfOn H sb none s) (hv : s.Valid ip) (hH : H (s.inode ip).inum) {n : ℕ}
    (hQ : ∀ r, (r = none → ∃ t, copy t = false) →
      (∀ l, r = some l → l = (List.range (readLen (s.inode ip).d.size off n)).map
        fun j => s.byte (s.inode ip).inum (off + j)) → Q r s) :
          wp (readi sb ip copy off n) Q E s := by
  refine wp_read ?_
  dsimp only
  split
  · next hc =>
    refine wp_pure.mpr (hQ _ nofun fun l hl => ?_)
    unfold readLen
    rw [if_pos hc]
    exact (some.inj hl).symm
  · next hc =>
    have hlen : readLen (s.inode ip).d.size off n =
        if (s.inode ip).d.size < off + n then (s.inode ip).d.size - off else n := if_neg hc
    rw [← hlen]
    refine readLoop_spec h hv hH (Nat.sub_le _ _) ?_ fun r h1 h2 => hQ r h1 fun l hl => ?_
    · rw [hlen]
      split <;> omega
    · rw [h2 l hl, List.nil_append, Nat.sub_zero]

/-- `readi` of bytes whose blocks are there, also where blocks behind them are missing. -/
theorem readi_covered (h : WfOn H sb none s) (hv : s.Valid ip) {n : ℕ} (hn : off + n < 2 ^ 32)
    (hle : off + n ≤ (s.inode ip).d.size) (hcov : ∀ o, off ≤ o → o < off + n →
      o / bSize < maxFile ∧ s.own ((s.inode ip).inum, .ofBlock (o / bSize)) ≠ 0)

    (hQ : Q (some ((List.range n).map fun j => s.byte (s.inode ip).inum (off + j))) s) :
    wp (readi sb ip (fun _ => true) off n) Q E s := by
  refine wp_read ?_
  rw [if_neg (by omega), if_neg (by omega)]
  refine readLoop_covered h hv (Nat.sub_le n 0) hcov fun r h1 h2 => ?_
  cases r with
  | none =>
    obtain ⟨t, ht⟩ := h1 rfl
    cases ht
  | some l =>
    rw [h2 l rfl]
    exact hQ

/-! ## Writing -/

theorem overlay_zero (b : Block) (i : ℕ) (f : ℕ → UInt8) : overlay b i 0 f = b := by
  funext o
  unfold overlay
  rw [if_neg (by omega)]

theorem overlay_overlay (b : Block) (i m m' : ℕ) (f : ℕ → UInt8) :
    overlay (overlay b i m f) (i + m) m' (fun j => f (m + j)) = overlay b i (m + m') f := by
  funext o
  unfold overlay
  split
  · rw [if_pos (by omega)]
    show f (m + (o - (i + m))) = f (o - i)
    congr 1
    omega
  · split
    · rw [if_pos (by omega)]
    · rw [if_neg (by omega)]

/-- A block with data is changed. -/
theorem WfOn.setData (h : WfOn H sb x s) {i n addr : ℕ} (ho : s.own (i, .ofBlock n) = addr)
    (h0 : addr ≠ 0)
    (f : Block → Block) : WfOn H sb x (s.setBlock addr f) ∧ (s.setBlock addr f).own = s.own ∧
      ∀ j o, (s.setBlock addr f).byte j o =
        if j = i ∧ o / bSize = n then f (s.block addr) (o % bSize) else s.byte j o := by
  have hdin : (s.setBlock addr f).din = s.din := rfl
  have hself : (s.setBlock addr f).block addr = f (s.block addr) := update_self ..
  have hne : ∀ k, s.own k ≠ 0 → k ≠ (i, .ofBlock n) →
      (s.setBlock addr f).block (s.own k) = s.block (s.own k) := by
    intro k hk hki
    refine update_of_ne ?_ ..
    rw [← ho]
    exact fun he => hki (h.exact.inj _ _ hk he)
  have hown : (s.setBlock addr f).own = s.own := by
    funext k
    obtain ⟨j, σ⟩ := k
    unfold Store.own
    rw [hdin]
    by_cases hl : (s.din j).type = .free
    · rw [if_pos hl, if_pos hl]
    · rw [if_neg hl, if_neg hl]
      refine congrFun (Dinode.addr_congr rfl fun hi => ?_) σ
      have hj : s.own (j, .ind) = (s.din j).addrs nDirect := if_neg hl
      have := hne (j, .ind) (hj ▸ hi) fun he => Slot.ofBlock_ne_ind n (Prod.ext_iff.mp he).2.symm
      rw [hj] at this
      exact this
  refine ⟨⟨h.uniq, h.typed, h.clean, ?_, h.fits, ?_, h.small, h.beyond⟩, hown, ?_⟩
  · rw [hown]
    exact h.exact
  · rw [hown]
    exact h.holes
  · intro j o
    unfold Store.byte
    rw [hown]
    by_cases hj : j = i ∧ o / bSize = n
    · rw [if_pos hj, hj.1, hj.2, ho, if_neg h0, hself]
    · rw [if_neg hj]
      by_cases hk : s.own (j, .ofBlock (o / bSize)) = 0
      · rw [if_pos hk, if_pos hk]
      · rw [if_neg hk, if_neg hk, hne _ hk]
        intro he
        exact hj ⟨(Prod.ext_iff.mp he).1, Slot.ofBlock_inj (Prod.ext_iff.mp he).2⟩

/-- `m` bytes at `off` are replaced. -/
def Node.write (off m : ℕ) (f : ℕ → UInt8) (n : Node) : Node :=
  { n with data := overlay n.data off m f }

/-- What the loop of `writei` does: blocks may be added to inode `ip`, and bytes are replaced. -/
structure Written (H : ℕ → Prop) (sb : Super) (ip : Ptr) (off m : ℕ) (f : ℕ → UInt8)
    (s s' : Store) : Prop where
  wf : WfOn H sb (some ip) s'
  table : SameTable s s'
  disk : s'.dinode = s.dinode
  others : ∀ e, e ≠ ip → (s'.inode e).d = (s.inode e).d
  node : s'.node = update s.node (s.inode ip).inum
    ((s.node (s.inode ip).inum).map (Node.write off m f))
  keep : ∀ k, s.own k ≠ 0 → s'.own k = s.own k

theorem Node.write_zero (off : ℕ) (f : ℕ → UInt8) (n : Node) : n.write off 0 f = n :=
  Node.ext rfl rfl rfl rfl rfl (overlay_zero ..)

theorem Written.of_grown (h : Grown H sb ip s s') (off : ℕ) (f : ℕ → UInt8) :
    Written H sb ip off 0 f s s' where
  wf := h.wf
  table := h.table
  disk := h.disk
  others := h.others
  node := by
    have hid : Node.write off 0 f = id := funext (Node.write_zero off f)
    rw [hid, map_id, id, update_eq_self, h.node]
  keep := h.keep

theorem Written.trans {m m' : ℕ} (h : Written H sb ip off m f s s')
    (h' : Written H sb ip (off + m) m' (fun j => f (m + j)) s' s'') :
    Written H sb ip off (m + m') f s s'' where
  wf := h'.wf
  table := h.table.trans h'.table
  disk := h'.disk.trans h.disk
  others := fun e he => (h'.others e he).trans (h.others e he)
  node := by
    rw [h'.node, h.node, (h.table ip).1, update_self, update_idem, map_map]
    congr 2
    funext n
    exact Node.ext rfl rfl rfl rfl rfl (overlay_overlay ..)
  keep := fun k hk => by
    have h1 := h.keep k hk
    rw [h'.keep k (h1 ▸ hk), h1]

theorem Written.valid {m : ℕ} (h : Written H sb ip off m f s s') (hv : s.Valid ip) :
    s'.Valid ip := (h.table.valid ip).mpr hv

/-- One chunk is written. -/
theorem Written.chunk (h : Grown H sb ip s s') {m addr : ℕ}
    (ho : s'.own ((s.inode ip).inum, .ofBlock (off / bSize)) = addr) (h0 : addr ≠ 0)
    (hm : m ≤ bSize - off % bSize) :
    Written H sb ip off m f s (s'.setBlock addr fun b => overlay b (off % bSize) m f) := by
  obtain ⟨hw, hown, hbyte⟩ := h.wf.setData ho h0 fun b => overlay b (off % bSize) m f
  refine ⟨hw, h.table, h.disk, h.others, ?_, fun k hk => by rw [hown, h.keep k hk]⟩
  rw [← h.node]
  funext i
  by_cases hi : i = (s.inode ip).inum
  · have hdata : (s'.setBlock addr fun b => overlay b (off % bSize) m f).byte i =
        overlay (s'.byte i) off m f := by
      funext o
      rw [hbyte]
      unfold overlay
      by_cases ho' : o / bSize = off / bSize
      · rw [if_pos ⟨hi, ho'⟩]
        have hb : s'.block addr (o % bSize) = s'.byte i o := by
          unfold Store.byte
          rw [ho', hi, ho, if_neg h0]
        have e1 := Nat.div_add_mod o bSize
        have e2 := Nat.div_add_mod off bSize
        rw [ho'] at e1
        split
        · rw [if_pos (by omega)]
          congr 1
          omega
        · rw [if_neg (by omega), hb]
      · rw [if_neg fun h => ho' h.2]
        refine (if_neg fun hc => ho' ?_).symm
        have := (chunk_div hm (j := o - off) (by omega)).1
        rwa [show off + (o - off) = o by omega] at this
    rw [hi, update_self, ← hi]
    unfold Store.node
    show (if (s'.din i).type = .free then none else _) = _
    by_cases hl : (s'.din i).type = .free
    · rw [if_pos hl, if_pos hl]
      rfl
    · rw [if_neg hl, if_neg hl, hdata]
      rfl
  · rw [update_of_ne hi]
    refine node_of_fields rfl rfl rfl rfl rfl ?_
    funext o
    rw [hbyte, if_neg fun h => hi h.1]

/-- Every block that starts below `off` is there. -/
def Covers (s : Store) (i off : ℕ) : Prop := ∀ k, k * bSize < off → s.own (i, .ofBlock k) ≠ 0

theorem Covers.chunk {i m : ℕ} (h : Covers s i off) (hb : s.own (i, .ofBlock (off / bSize)) ≠ 0)
    (hm : m ≤ bSize - off % bSize) : Covers s i (off + m) := by
  intro k hk
  by_cases hlt : k * bSize < off
  · exact h k hlt
  · have hk' : k = off / bSize := by
      unfold bSize at *
      omega
    rw [hk']
    exact hb

theorem writeLoop_spec (h : WfOn H sb (some ip) s) (hv : s.Valid ip) {src : ℕ → UInt8}
    {copy : ℕ → Option ℕ} {n fuel tot : ℕ} (hfuel : n - tot ≤ fuel)
    (hmax : off + (n - tot) ≤ maxFile * bSize) (hcov : Covers s (s.inode ip).inum off)
    {Q : ℕ × ℕ → Store → Prop}
    (hQ : ∀ c m s', c ≤ n - tot → c ≤ m → ((∀ t, copy t = none) → m = c) →
      (c = n - tot ∨ c = 0 ∨ (off + c) % bSize = 0) →
      (c = n - tot ∨ (∃ t, copy t ≠ none) ∨ ∀ b, b < sb.size → s'.bit b = true) →
      Written H sb ip off m (fun j => src (tot + j)) s s' → Covers s' (s.inode ip).inum (off + c) →
      Q (tot + c, off + c) s') : wp (writeLoop sb ip src copy n fuel tot off) Q E s := by
  have hdone : n - tot = 0 → Q (tot, off) s := fun h0 =>
    hQ 0 0 s (Nat.zero_le _) (Nat.le_refl _) (fun _ => rfl) (.inr (.inl rfl)) (.inl h0.symm)
      (.of_grown (.refl h) ..) hcov
  induction fuel generalizing s tot off with
  | zero => exact wp_pure.mpr (hdone (Nat.le_zero.mp hfuel))
  | succ fuel ih =>
    unfold writeLoop
    split
    · have hoff : off < maxFile * bSize := by omega
      refine wp_seq (bmap_spec h hv (div_lt_maxFile hoff) fun addr s1 hg haddr hfull _ => ?_)
      have hcov1 : Covers s1 (s.inode ip).inum off := by
        intro k hk
        have := hcov k hk
        rw [hg.keep _ this]
        exact this
      by_cases ha0 : addr = 0
      · -- no block left
        rw [if_pos ha0]
        exact wp_pure.mpr (hQ 0 0 s1 (Nat.zero_le _) (Nat.le_refl _) (fun _ => rfl)
          (.inr (.inl rfl)) (.inr (.inr (hfull ha0))) (.of_grown hg ..) hcov1)
      · rw [if_neg ha0]
        have haddr := haddr ha0
        dsimp only
        generalize hm : min (n - tot) (bSize - off % bSize) = m
        have hm1 : m ≤ n - tot := hm ▸ Nat.min_le_left _ _
        have hm2 : m ≤ bSize - off % bSize := hm ▸ Nat.min_le_right _ _
        have hm3 : m = n - tot ∨ m = bSize - off % bSize := by omega
        have hmod : off % bSize < bSize := Nat.mod_lt _ (by decide)
        have hb1 : s1.own ((s.inode ip).inum, .ofBlock (off / bSize)) ≠ 0 := by
          rw [haddr]
          exact ha0
        split
        · -- the chunk is copied
          refine wp_seq (wp_modify.mpr ?_)
          have hwr := Written.chunk hg (f := fun j => src (tot + j)) haddr ha0 hm2
          have hown2 := (hg.wf.setData haddr ha0
            fun b => overlay b (off % bSize) m fun j => src (tot + j)).2.1
          have hcov2 := hcov1.chunk hb1 hm2
          generalize (s1.setBlock addr fun b => overlay b (off % bSize) m fun j => src (tot + j)) =
            s2
            at hwr hown2
          have hin : (s2.inode ip).inum = (s.inode ip).inum := (hwr.table ip).1
          have hcov2 : Covers s2 (s2.inode ip).inum (off + m) := by
            unfold Covers
            rw [hown2, hin]
            exact hcov2
          refine ih hwr.wf (hwr.valid hv) (by omega) (by omega) hcov2
            (fun c m' s' h1 h2 h3 h4 h5 h6 h7 => ?_) fun h0 => ?_
          · have hend : (off + m) % bSize = 0 ∨ m = n - tot := by
              rcases hm3 with he | he
              · exact .inr he
              · refine .inl ?_
                unfold bSize at *
                omega
            rw [Nat.add_assoc, Nat.add_assoc]
            refine hQ (m + c) (m + m') s' (by omega) (by omega) (fun hc => by rw [h3 hc]) ?_ ?_
              (hwr.trans ?_) ?_
            · rcases h4 with h4 | h4 | h4
              · exact .inl (by omega)
              · rcases hend with he | he
                · exact .inr (.inr (by rw [h4]; exact he))
                · exact .inl (by omega)
              · exact .inr (.inr (by rw [← Nat.add_assoc]; exact h4))
            · rcases h5 with h5 | h5
              · exact .inl (by omega)
              · exact .inr h5
            · simp only [Nat.add_assoc] at h6 ⊢
              exact h6
            · rw [← Nat.add_assoc, ← hin]
              exact h7
          · have hmn : m = n - tot := by omega
            refine hQ m m s2 hm1 (Nat.le_refl _) (fun _ => rfl) (.inl hmn) (.inl hmn) hwr ?_
            rw [← hin]
            exact hcov2
        · -- the copy fails
          rename_i k hk
          refine wp_seq (wp_modify.mpr (wp_pure.mpr ?_))
          have hmin : min k m ≤ bSize - off % bSize := Nat.le_trans (Nat.min_le_right _ _) hm2
          have hwr := Written.chunk hg (f := fun j => src (tot + j)) haddr ha0 hmin
          have hown2 := (hg.wf.setData haddr ha0
            fun b => overlay b (off % bSize) (min k m) fun j => src (tot + j)).2.1
          refine hQ 0 (min k m) _ (Nat.zero_le _) (Nat.zero_le _) (fun hc => ?_) (.inr (.inl rfl))
            (.inr (.inl ⟨tot, by rw [hk]; exact nofun⟩)) hwr ?_
          · rw [hc] at hk
            cases hk
          · unfold Covers
            rw [hown2]
            exact hcov1
    · exact wp_pure.mpr (hdone (by omega))

/-- `writei` on a node: `c` bytes count, `m` are replaced. -/
def Node.put (off c m : ℕ) (f : ℕ → UInt8) (n : Node) : Node :=
  { n with data := overlay n.data off m f, size := if n.size < off + c then off + c else n.size }

theorem writei_spec (h : WfOn H sb none s) (hv : s.Valid ip) (hH : H (s.inode ip).inum)
    {src : ℕ → UInt8} {copy : ℕ → Option ℕ}
    {n : ℕ} {Q : Option ℕ → Store → Prop}
    (hbad : (s.inode ip).d.size < off ∨ (off + n) % 2 ^ 32 < off ∨
      maxFile * bSize < (off + n) % 2 ^ 32 → Q none s)
    (hQ : ∀ c m s', off ≤ (s.inode ip).d.size → c ≤ n → c ≤ m → ((∀ t, copy t = none) → m = c) →
      (c = n ∨ c = 0 ∨ (off + c) % bSize = 0) →
      (c = n ∨ (∃ t, copy t ≠ none) ∨ ∀ b, b < sb.size → s'.bit b = true) →
      WfOn H sb none s' → SameTable s s' → s'.node = update s.node (s.inode ip).inum
        ((s.node (s.inode ip).inum).map (Node.put off c m src)) → Q (some c) s') (hn : n < 2 ^ 32) :
    wp (writei sb ip src copy off n) Q E s := by
  have hdv := Store.din_of_valid h.uniq hv
  have hlive : (s.din (s.inode ip).inum).type ≠ .free := by
    rw [hdv]
    exact h.typed ip hv
  unfold writei
  refine wp_read ?_
  split
  · next h1 =>
    exact wp_pure.mpr (hbad (h1.elim .inl fun h => .inr (.inl h)))
  · split
    · next h2 =>
      exact wp_pure.mpr (hbad (.inr (.inr h2)))
    · have hoff : off ≤ (s.inode ip).d.size := by omega
      -- the sum does not wrap
      have hcov : Covers s (s.inode ip).inum off := by
        intro k hk
        exact h.holes _ _ hH hlive (by rw [hdv]; omega)
      refine wp_seq (writeLoop_spec (h.dirty _) hv (Nat.sub_le n 0) (by omega) hcov
        fun c m s1 e1 e2 e3 e4 e5 hw hcov1 => ?_)
      rw [Nat.sub_zero] at e1 e4 e5
      rw [Nat.zero_add]
      have hv1 := hw.valid hv
      have hin : (s1.inode ip).inum = (s.inode ip).inum := (hw.table ip).1
      have hH1 : H (s1.inode ip).inum := hin ▸ hH
      have hdv1 := Store.din_of_valid hw.wf.uniq hv1
      have hlive1 : (s1.din (s1.inode ip).inum).type ≠ .free := by
        rw [hdv1]
        exact hw.wf.typed ip hv1
      refine wp_putD (wp_pure.mpr ?_)
      dsimp only
      obtain ⟨hw2, ht2, -, hn2⟩ := hw.wf.putD hv1 (.inr rfl)
        (f := fun d => { d with size := if d.size < off + c then off + c else d.size }) rfl rfl
        (by
          dsimp only
          split
          · omega
          · rw [← hdv1]
            exact hw.wf.small _ hH1 hlive1)
        (by
          intro k hk
          dsimp only at hk
          split at hk
          · rw [hin]
            exact hcov1 k hk
          · exact hw.wf.holes _ k hH1 hlive1 (by rw [hdv1]; exact hk))
      refine hQ c m _ hoff e1 e2 e3 e4 ?_ hw2 (hw.table.trans ht2) ?_
      · exact e5
      · -- the fields in memory are those of the node
        have hnode := node_of_valid h hv
        have hnode1 := node_of_valid hw.wf hv1
        rw [hin, hw.node, update_self, hnode] at hnode1
        obtain ⟨-, e1, e2, e3, e4, -⟩ := Node.ext_iff.mp (some.inj hnode1)
        have hma : (s1.inode ip).d.major = (s.inode ip).d.major := e1.symm
        have hmi : (s1.inode ip).d.minor = (s.inode ip).d.minor := e2.symm
        have hnl : (s1.inode ip).d.nlink = (s.inode ip).d.nlink := e3.symm
        have hsz : (s1.inode ip).d.size = (s.inode ip).d.size := e4.symm
        rw [hn2, hw.node, hin, update_self, update_idem, hnode, map_map]
        simp only [map_some, Function.comp, hma, hmi, hnl, hsz, Node.write, Node.put, Nat.zero_add]

end Xv6.Fs
