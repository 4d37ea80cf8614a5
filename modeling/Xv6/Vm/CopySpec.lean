/-
  Writing user memory: `copyout`, and the stores of user mode.

  `copyout` writes a page that user mode can write in place, and maps one that is not mapped yet. An
  entry without `PTE_W` ends the copy, also where `PTE_COW` is set. A store of user mode traps there
  and is tried again.
-/
import Xv6.Vm.FaultSpec

namespace Xv6.Vm

open Lib Function List Finset Heap

variable {L : Layout} {E : Panic → Prop} {G G' G'' : Forest} {h h' h'' : PageHeap} {id id' : Tid}
  {q t v w va pt dstva sz b b' : ℕ} {e : Pte} {p : Cur} {src : List UInt8} {f : ℕ → UInt8}
  {c : UInt8}

/-- The byte at a user address. -/
def Forest.byteAt (G : Forest) (h : PageHeap) (id : Tid) (a : ℕ) : UInt8 :=
  G.page h id (a / pgSize) (a % pgSize)

/-! ## Writing a page -/

/-- A page that is mapped once gets other bytes. -/
theorem Holds.writePage (hH : Holds L G h) (hm : (G.leaf id v).maps q = true) (hone : G.refs q = 1)
    (f : ℕ → UInt8) : Holds L G (h.set q (some (1, .bytes f))) := by
  have hk := (hH.of_leaf hm).1
  refine ⟨hH.toShape.set_other fun hN => hk (.inl hN), ?_, ?_, hH.kern, ?_, hH.writable⟩
  · intro r hr
    by_cases hrq : r = q
    · exact hrq ▸ hH.managed_of_leaf hm
    · rw [set_ne h _ hrq] at hr
      exact hH.range r hr
  · intro r hr
    rw [set_ne]
    · exact hH.own r hr
    · rintro rfl
      exact hk (.inr hr)
  · intro r hr
    by_cases hrq : r = q
    · rw [hrq, set_same, hone]
      exact .mk Nat.one_pos f
    · rw [set_ne h _ hrq]
      exact hH.user r hr

theorem page_writePage (hH : Holds L G h) (hm : (G.leaf id v).maps q = true) (hone : G.refs q = 1)
    (f : ℕ → UInt8) (id' : Tid) (v' : ℕ) : G.page (h.set q (some (1, .bytes f))) id' v' =
      if id' = id ∧ v' = v then f else G.page h id' v' := by
  split_ifs with hsame
  · rw [hsame.1, hsame.2]
    exact page_mapped hm (set_same h q _)
  · refine page_congr rfl fun hv' hu' => ?_
    rw [set_ne]
    intro hpq
    exact hsame (hH.unique hm (maps_iff.mpr ⟨hv', hu', hpq⟩) hone)

/-! ## What a copy leaves -/

/-- The bytes `src` stand at `dstva` of table `id`, and nothing else has changed but that pages
    of the range may have been mapped. -/
structure Put (L : Layout) (id : Tid) (sz dstva : ℕ) (src : List UInt8) (G : Forest) (h : PageHeap)
    (G' : Forest) (h' : PageHeap) : Prop extends Kept L id sz G h G' h' where
  keep : ∀ v, (∀ i < src.length, (dstva + i) / pgSize ≠ v) → G'.leaf id v = G.leaf id v
  byte : ∀ a, G'.byteAt h' id a =
    if dstva ≤ a ∧ a < dstva + src.length then src.getD (a - dstva) 0 else G.byteAt h id a

theorem Put.nil (hH : Holds L G h) (id : Tid) (sz dstva : ℕ) : Put L id sz dstva [] G h G h where
  toKept := (Same.refl hH id sz).toKept
  keep _ _ := rfl
  byte a := by
    rw [if_neg]
    rintro ⟨h1, h2⟩
    exact absurd h2 (Nat.not_lt.mpr h1)

/-- A page of the range is made ready first. -/
theorem Put.of_same (hs : Same L id sz G h G' h') (hl : ∀ w, w ≠ v → G'.leaf id w = G.leaf id w)
    (hput : Put L id sz dstva src G' h' G'' h'')
    (hmem : ∃ i < src.length, (dstva + i) / pgSize = v) :
    Put L id sz dstva src G h G'' h'' where
  toKept := hs.toKept.trans hput.toKept
  keep w hw := by
    obtain ⟨i, hi, hiv⟩ := hmem
    rw [hput.keep w hw, hl w fun hwv => hw i hi (hiv.trans hwv.symm)]
  byte a := by
    rw [hput.byte a]
    unfold Forest.byteAt
    rw [hs.page]

/-- A copy goes on where the first part ends. -/
theorem Put.append {l1 l2 : List UInt8} (h1 : Put L id sz dstva l1 G h G' h')
    (h2 : Put L id sz (dstva + l1.length) l2 G' h' G'' h'') :
    Put L id sz dstva (l1 ++ l2) G h G'' h'' where
  toKept := h1.toKept.trans h2.toKept
  keep v hv := by
    rw [length_append] at hv
    rw [h2.keep v fun i hi => ?_, h1.keep v fun i hi => hv i (by omega)]
    rw [Nat.add_assoc]
    exact hv _ (by omega)
  byte a := by
    rw [h2.byte a, h1.byte a, length_append]
    by_cases hl : dstva ≤ a ∧ a < dstva + l1.length
    · rw [if_neg (by omega), if_pos hl, if_pos (by omega), getD_append _ _ _ _ (by omega)]
    · rw [if_neg hl]
      split
      · rw [if_pos (by omega), getD_append_right _ _ _ _ (by omega), Nat.sub_add_eq]
      · rw [if_neg (by omega)]

/-- Bytes written to one page. -/
theorem Put.of_write (hH : Holds L G h) (hm : (G.leaf id (dstva / pgSize)).maps q = true)
    (hone : G.refs q = 1) (hlen : dstva % pgSize + src.length ≤ pgSize) (sz : ℕ) :
    Put L id sz dstva src G h G
      (h.set q (some (1, .bytes (patch (G.page h id (dstva / pgSize)) (dstva % pgSize) src)))) := by
  have hpage :=
    page_writePage hH hm hone (patch (G.page h id (dstva / pgSize)) (dstva % pgSize) src)
  refine ⟨⟨hH.writePage hm hone _, ⟨fun _ _ => rfl, fun _ _ => rfl, fun _ => rfl, rfl, ?_, ?_⟩,
    .refl sz _⟩, fun _ _ => rfl, ?_⟩
  · intro r hr
    refine set_ne h _ ?_
    rintro rfl
    exact (hH.of_leaf hm).1 (.inr hr)
  · intro id' hid
    funext v'
    rw [hpage, if_neg fun hx => hid hx.1]
  · intro a
    unfold Forest.byteAt
    rw [hpage]
    unfold pgSize at hlen ⊢
    by_cases hav : a / 4096 = dstva / 4096
    · rw [if_pos ⟨rfl, hav⟩]
      unfold patch
      by_cases hin : dstva ≤ a ∧ a < dstva + src.length
      · rw [if_pos (by omega), if_pos hin]
        congr 1
        omega
      · rw [if_neg (by omega), if_neg hin, hav]
    · rw [if_neg fun hx => hav hx.2, if_neg (by omega)]

/-! ## One page -/

/-- The entry lets user mode write. -/
def Pte.Writable (e : Pte) : Prop := e.v = true ∧ e.u = true ∧ e.w = true

/-- The entry of a copy-on-write page. -/
def Pte.Shared (e : Pte) : Prop := e.v = true ∧ e.u = true ∧ e.w = false ∧ e.cow = true

instance (e : Pte) : Decidable e.Writable := inferInstanceAs (Decidable (_ ∧ _))

instance (e : Pte) : Decidable e.Shared := inferInstanceAs (Decidable (_ ∧ _))

theorem Pte.not_maps (hv : e.v = false ∨ e.u = false) (q : ℕ) : e.maps q = false := by
  unfold Pte.maps
  rcases hv with hv | hu
  · rw [hv]
    rfl
  · rw [hu, Bool.and_false]
    rfl

theorem leaf_beyond (hH : Holds L G h) (hge : maxVa ≤ va) (id : Tid) :
    G.leaf id (va / pgSize) = .zero := by
  refine hH.toShape.bound id _ ?_
  unfold maxVpn maxVa pgSize
  unfold maxVa at hge
  omega

section

variable (hH : Holds L G h) (hroot : G.node id .root = some pt)

include hH hroot

theorem walkaddr_spec {Q : Post (Option ℕ)}
    (hnone : (∀ q, (G.leaf id (va / pgSize)).maps q = false) → Q none h b)
    (hsome : ∀ q, va < maxVa → (G.leaf id (va / pgSize)).maps q = true → Q (some q) h b) :
    Spec L E Q (walkaddr pt va) h b := by
  unfold walkaddr
  split
  · rename_i hge
    exact hnone fun q => by rw [leaf_beyond hH hge]; rfl
  · rename_i hlt
    have hva := Nat.lt_of_not_le hlt
    refine wp_seq (walk_find hH hroot hva ?_ ?_)
    · intro hn
      exact hnone fun q => by rw [hH.toShape.leaf_zero hn]; rfl
    · intro t ht
      refine wp_seq (readPte_spec (hH.table id _ t ht) ?_)
      rw [Shape.entry (vpn_lt hva)]
      split
      · rename_i hvu
        exact hnone (Pte.not_maps hvu)
      · rename_i hvu
        simp only [not_or, Bool.not_eq_false] at hvu
        exact hsome _ hva (maps_iff.mpr ⟨hvu.1, hvu.2, rfl⟩)

theorem translate_spec {Q : Post (Option Pte)}
    (hnone : (∀ q, (G.leaf id (va / pgSize)).maps q = false) → Q none h b)
    (hsome : (G.leaf id (va / pgSize)).maps (G.leaf id (va / pgSize)).ppn = true →
      Q (some (G.leaf id (va / pgSize))) h b) : Spec L E Q (translate pt va) h b := by
  unfold translate
  split
  · rename_i hge
    exact hnone fun q => by rw [leaf_beyond hH hge]; rfl
  · rename_i hlt
    have hva := Nat.lt_of_not_le hlt
    refine wp_seq (walk_find hH hroot hva ?_ ?_)
    · intro hn
      exact hnone fun q => by rw [hH.toShape.leaf_zero hn]; rfl
    · intro t ht
      refine wp_seq (readPte_spec (hH.table id _ t ht) ?_)
      rw [Shape.entry (vpn_lt hva)]
      split
      · rename_i hvu
        exact hsome (maps_iff.mpr ⟨hvu.1, hvu.2, rfl⟩)
      · rename_i hvu
        refine hnone (Pte.not_maps ?_)
        rw [not_and_or, Bool.not_eq_true, Bool.not_eq_true] at hvu
        exact hvu

variable {Q : Post Bool}

/-- The end of `copyoutPage`, once the page is known. -/
theorem copyoutPage_end (hva : dstva < maxVa) (hm : (G.leaf id (dstva / pgSize)).maps q = true)
    (hok : (G.leaf id (dstva / pgSize)).w = true →
      Q true (h.set q
        (some (1, .bytes (patch (G.page h id (dstva / pgSize)) (dstva % pgSize) src)))) b)
    (hro : (G.leaf id (dstva / pgSize)).w = false → Q false h b) :
    Spec L E Q
      (do
        match ← walk pt (pgRoundDown dstva) false with
        | none => .fail .null
        | some (t, i) => do
          let pte ← readPte t i
          if pte.w = false then .ret false
          else do
            memmove q (dstva % pgSize) src
            .ret true) h b := by
  have hdown : pgRoundDown dstva < maxVa := Nat.lt_of_le_of_lt (pgRoundDown_le dstva) hva
  have hv := (maps_iff.mp hm).1
  refine wp_seq (walk_find hH hroot hdown ?_ ?_)
  · intro hn
    rw [pgRoundDown_div] at hn
    rw [hH.toShape.leaf_zero hn] at hv
    cases hv
  · intro t ht
    rw [pgRoundDown_div] at ht ⊢
    refine wp_seq (readPte_spec (hH.table id _ t ht) ?_)
    rw [Shape.entry (vpn_lt hva)]
    split
    · rename_i hw
      exact hro hw
    · rename_i hw
      have hw : (G.leaf id (dstva / pgSize)).w = true := Bool.not_eq_false _ ▸ hw
      exact wp_seq (memmove_spec (hH.own_leaf hm hw) (hok hw))

/-- The page is mapped for user mode. -/
theorem copyoutPage_mapped (hm : (G.leaf id (dstva / pgSize)).maps q = true)
    (hok : (G.leaf id (dstva / pgSize)).w = true →
      Q true (h.set q
        (some (1, .bytes (patch (G.page h id (dstva / pgSize)) (dstva % pgSize) src)))) b)
    (hro : (G.leaf id (dstva / pgSize)).w = false → Q false h b) :
    Spec L E Q (copyoutPage L p pt dstva src) h b := by
  have hva : dstva < maxVa := by
    by_contra hge
    rw [leaf_beyond hH (Nat.le_of_not_lt hge)] at hm
    cases hm
  unfold copyoutPage
  rw [if_neg (Nat.not_le.mpr (Nat.lt_of_le_of_lt (pgRoundDown_le dstva) hva))]
  refine wp_seq (wp_seq (walkaddr_spec hH hroot ?_ ?_))
  · intro hnone
    rw [pgRoundDown_div] at hnone
    rw [hnone q] at hm
    cases hm
  · intro q' _ hq'
    rw [pgRoundDown_div] at hq'
    obtain rfl := maps_inj hm hq'
    exact copyoutPage_end hH hroot hva hq' hok hro

/-- A copy that stays in one page. -/
theorem copyout_page (hm : (G.leaf id (dstva / pgSize)).maps q = true)
    (hw : (G.leaf id (dstva / pgSize)).w = true) (hne : src ≠ [])
    (hlen : dstva % pgSize + src.length ≤ pgSize)
    (hQ : Q true
      (h.set q (some (1, .bytes (patch (G.page h id (dstva / pgSize)) (dstva % pgSize) src)))) b) :
    Spec L E Q (copyout L p pt dstva src) h b := by
  have hpos : 0 < src.length := List.length_pos_iff.mpr hne
  have hchunk : chunk dstva src.length = src.length := by
    unfold chunk
    omega
  have hnil : ∀ k va h b, Q true h b → Spec L E Q (copyoutLoop L p pt k va []) h b := by
    intro k va h b hq
    cases k with
    | zero => exact hq
    | succ k =>
      unfold copyoutLoop
      rw [if_pos rfl]
      exact hq
  unfold copyout
  obtain ⟨k, hk⟩ : ∃ k, src.length = k + 1 := ⟨src.length - 1, by omega⟩
  rw [hk]
  unfold copyoutLoop
  rw [if_neg hne, hchunk, take_length, drop_length]
  refine wp_seq (copyoutPage_mapped hH hroot hm (fun _ => hnil _ _ _ _ hQ) fun hro => ?_)
  rw [hw] at hro
  cases hro

end

/-- An entry that stops a copy: it does not let user mode write, or there is none and the page
    cannot be mapped. -/
def Blocked (p : Cur) (few : Prop) (e : Pte) (v : ℕ) : Prop :=
  e.v = true ∧ ¬ e.Writable ∨ e.v = false ∧ (p.sz ≤ v * pgSize ∨ few)

section

variable {Q : Post Bool} (hH : Holds L G h) (hroot : G.node id .root = some p.pagetable)
  (hl : UserLeaves (G.leaf id) (pageCount p.sz))

include hH hroot hl

/-- One round of `copyout` to the process's own table. -/
theorem copyoutPage_spec (hlen : dstva % pgSize + src.length ≤ pgSize) (hpos : 0 < src.length)
    (hok : ∀ G' h' b', Put L id p.sz dstva src G h G' h' →
      ((G.leaf id (dstva / pgSize)).Writable ∧ b' = b ∨ (G.leaf id (dstva / pgSize)).v = false ∧
        b ≤ b' + 3) →
      Q true h' b')
    (hbad : ∀ G' h' b', Kept L id p.sz G h G' h' →
      Blocked p (b < 3) (G.leaf id (dstva / pgSize)) (dstva / pgSize) → Q false h' b') :
    Spec L E Q (copyoutPage L p p.pagetable dstva src) h b := by
  have hkept := (Same.refl hH id p.sz).toKept
  by_cases hmap : ∃ q, (G.leaf id (dstva / pgSize)).maps q = true
  · obtain ⟨q, hm⟩ := hmap
    obtain ⟨hv, hu, _⟩ := maps_iff.mp hm
    refine copyoutPage_mapped hH hroot hm ?_ ?_
    · intro hw
      exact hok G _ b (.of_write hH hm (hH.writable _ _ _ hm hw) hlen _) (.inl ⟨⟨hv, hu, hw⟩, rfl⟩)
    · intro hw
      refine hbad G h b hkept (.inl ⟨hv, fun hx => ?_⟩)
      rw [hx.2.2] at hw
      cases hw
  · simp only [not_exists, Bool.not_eq_true] at hmap
    unfold copyoutPage
    split
    · rename_i hge
      have hz := leaf_beyond hH (hge.trans (pgRoundDown_le dstva)) id
      refine hbad G h b hkept (.inr ⟨by rw [hz]; rfl, .inl ?_⟩)
      exact hl.size_le.trans hge
    rename_i hlt
    have hdown : pgRoundDown dstva < maxVa := Nat.lt_of_not_le hlt
    have hva : dstva < maxVa := by
      unfold pgRoundDown pgSize at hdown
      unfold maxVa at hdown ⊢
      omega
    refine wp_seq (wp_seq (walkaddr_spec hH hroot ?_ ?_))
    · intro _
      refine vmfault_spec hH hroot hl.size_le ?_ ?_ ?_
      · intro hno
        rw [pgRoundDown_div] at hno
        refine hbad G h b hkept ?_
        by_cases hv : (G.leaf id (dstva / pgSize)).v = true
        · refine .inl ⟨hv, fun hw => ?_⟩
          have := hmap (G.leaf id (dstva / pgSize)).ppn
          rw [maps_iff.mpr ⟨hw.1, hw.2.1, rfl⟩] at this
          cases this
        · exact .inr ⟨Bool.eq_false_iff.mpr hv, .inl (hno.resolve_right hv)⟩
      · intro G' h' b' _ hv hi hfew
        rw [pgRoundDown_div] at hv
        exact hbad G' h' b' (hi.same _).toKept (.inr ⟨hv, .inr (by omega)⟩)
      · intro G' h' b' mem hlt hv hf hleaf
        rw [pgRoundDown_div] at hv hf hleaf
        have hm : (G'.leaf id (dstva / pgSize)).maps mem = true := by
          rw [hleaf]
          exact maps_iff.mpr ⟨rfl, rfl, rfl⟩
        have hw : (G'.leaf id (dstva / pgSize)).w = true := by rw [hleaf]
        obtain ⟨mem', hall, _⟩ := hf.leaf
        refine copyoutPage_end hf.holds ((hf.frame.root id).trans hroot) hva hm ?_ ?_
        · intro _
          refine hok G' _ b' (.of_same (v := dstva / pgSize) (hf.same rfl hlt) ?_
            (.of_write hf.holds hm (hf.holds.writable _ _ _ hm hw) hlen _) ⟨0, hpos, rfl⟩)
            (.inr ⟨hv, hf.spent.2⟩)
          intro w hw
          rw [hall, update_of_ne hw]
        · intro hro
          rw [hw] at hro
          cases hro
    · intro q _ hq
      rw [pgRoundDown_div, hmap q] at hq
      cases hq

end

/-! ## The loop -/

/-- The pages of `len` bytes at `va`. -/
def pagesOf (va len : ℕ) : Finset ℕ := (Finset.range len).image fun i => (va + i) / pgSize

theorem mem_pagesOf {va len v : ℕ} : v ∈ pagesOf va len ↔ ∃ i < len, (va + i) / pgSize = v := by
  simp [pagesOf]

theorem chunk_pos (va : ℕ) {len : ℕ} (hlen : 0 < len) : 0 < chunk va len := by
  unfold chunk pgSize
  omega

theorem chunk_le (va len : ℕ) : chunk va len ≤ len := Nat.min_le_right _ _

theorem chunk_fits (va len : ℕ) : va % pgSize + chunk va len ≤ pgSize := by
  unfold chunk pgSize
  omega

/-- Where the next round starts, if there is one. -/
theorem next_va {va len : ℕ} (hmore : chunk va len < len) :
    pgRoundDown va + pgSize = va + chunk va len := by
  unfold chunk at hmore ⊢
  unfold pgRoundDown
  unfold pgSize at hmore ⊢
  omega

theorem pagesOf_next (va : ℕ) {len : ℕ} (hlen : 0 < len) :
    pagesOf va len = insert (va / pgSize) (pagesOf (va + chunk va len) (len - chunk va len)) ∧
      va / pgSize ∉ pagesOf (va + chunk va len) (len - chunk va len) := by
  constructor
  · ext v
    rw [mem_insert, mem_pagesOf, mem_pagesOf]
    constructor
    · rintro ⟨i, hi, rfl⟩
      by_cases hic : i < chunk va len
      · left
        have := chunk_fits va len
        unfold pgSize at this ⊢
        omega
      · exact .inr ⟨i - chunk va len, by omega, by congr 1; omega⟩
    · rintro (rfl | ⟨i, hi, rfl⟩)
      · exact ⟨0, hlen, rfl⟩
      · exact ⟨chunk va len + i, by omega, by rw [Nat.add_assoc]⟩
  · rw [mem_pagesOf]
    rintro ⟨i, hi, hiv⟩
    have hmore : chunk va len < len := by omega
    have hnext := next_va hmore
    unfold pgRoundDown at hnext
    unfold pgSize at hnext hiv
    omega

/-- The pages that a copy has to map. -/
def lazyPages (G : Forest) (id : Tid) (S : Finset ℕ) : Finset ℕ :=
  S.filter fun v => (G.leaf id v).v = false

/-- **`copyout`** to the process's own table. It copies all bytes, or stops at a page that blocks
    it. -/
theorem copyoutLoop_spec {Q : Post Bool} {fuel : ℕ} (hH : Holds L G h)
    (hroot : G.node id .root = some p.pagetable) (hl : UserLeaves (G.leaf id) (pageCount p.sz))
    (hfuel : src.length ≤ fuel)
    (hok : ∀ G' h' b', Put L id p.sz dstva src G h G' h' →
      (∀ v ∈ pagesOf dstva src.length, (G.leaf id v).Writable ∨ (G.leaf id v).v = false) →
      Q true h' b')
    (hbad : ∀ G' h' b', Kept L id p.sz G h G' h' → (∃ v ∈ pagesOf dstva src.length,
      Blocked p (b < 3 * (lazyPages G id (pagesOf dstva src.length)).card) (G.leaf id v) v) →
        Q false h' b') :
    Spec L E Q (copyoutLoop L p p.pagetable fuel dstva src) h b := by
  induction fuel generalizing dstva src G h b with
  | zero =>
    obtain rfl := eq_nil_of_length_eq_zero (Nat.le_zero.mp hfuel)
    exact hok G h b (.nil hH id _ dstva) fun v hv => by simp [pagesOf] at hv
  | succ fuel ih =>
    unfold copyoutLoop
    split
    · rename_i hnil
      subst hnil
      exact hok G h b (.nil hH id _ dstva) fun v hv => by simp [pagesOf] at hv
    rename_i hne
    have hpos : 0 < src.length := List.length_pos_iff.mpr hne
    have hcpos := chunk_pos dstva hpos
    have hcle := chunk_le dstva src.length
    have hfit := chunk_fits dstva src.length
    obtain ⟨hsplit, hnot⟩ := pagesOf_next dstva hpos
    rw [hsplit] at hok hbad
    generalize hc : chunk dstva src.length = c at hcpos hcle hfit hsplit hnot hok hbad
    generalize hS : pagesOf (dstva + c) (src.length - c) = S at hnot hok hbad
    have htake : (src.take c).length = c := by
      rw [length_take]
      omega
    have hdrop : (src.drop c).length = src.length - c := length_drop
    have hcard : (lazyPages G id (insert (dstva / pgSize) S)).card =
        (lazyPages G id S).card + if (G.leaf id (dstva / pgSize)).v = false then 1 else 0 := by
      unfold lazyPages
      rw [Finset.filter_insert]
      split_ifs
      · rw [Finset.card_insert_of_notMem fun hx => hnot (Finset.mem_filter.mp hx).1]
      · rfl
    refine wp_seq (copyoutPage_spec hH hroot hl (by rw [htake]; exact hfit) (by omega) ?_ ?_)
    · intro G1 h1 b1 hput hfirst
      have hsame : ∀ v ∈ S, G1.leaf id v = G.leaf id v := by
        intro v hv
        refine hput.keep v fun i hi hiv => hnot ?_
        have : (dstva + i) / pgSize = dstva / pgSize := by
          unfold pgSize at hfit ⊢
          omega
        rw [← this, hiv]
        exact hv
      have hlazy : lazyPages G1 id S = lazyPages G id S :=
        Finset.filter_congr fun v hv => by rw [hsame v hv]
      have hfirst' : (G.leaf id (dstva / pgSize)).Writable ∨
          (G.leaf id (dstva / pgSize)).v = false :=
        hfirst.imp And.left And.left
      by_cases hmore : c < src.length
      · have hnext : pgRoundDown dstva + pgSize = dstva + chunk dstva src.length :=
          next_va (by omega)
        rw [hc] at hnext
        rw [if_pos rfl, hnext]
        refine ih hput.holds ((hput.frame.root id).trans hroot) (hl.touch hput.leaf)
          (by omega) ?_ ?_
        · intro G2 h2 b2 hput' hall
          rw [hdrop, hS] at hall
          rw [← htake] at hput'
          have hput2 := hput.append hput'
          rw [htake, take_append_drop] at hput2
          refine hok G2 h2 b2 hput2 fun v hv => ?_
          rcases Finset.mem_insert.mp hv with rfl | hv
          · exact hfirst'
          · rw [← hsame v hv]
            exact hall v hv
        · intro G2 h2 b2 hk hex
          rw [hdrop, hS, hlazy] at hex
          obtain ⟨v, hv, hblock⟩ := hex
          refine hbad G2 h2 b2 (hput.toKept.trans hk) ⟨v, Finset.mem_insert_of_mem hv, ?_⟩
          rw [hsame v hv] at hblock
          refine hblock.imp_right (And.imp_right (Or.imp_right fun hfew => ?_))
          rw [hcard]
          rcases hfirst with ⟨hw, rfl⟩ | ⟨hv', hb⟩
          · rw [if_neg (by rw [hw.1]; decide)]
            omega
          · rw [if_pos hv']
            omega
      · have hceq : c = src.length := by omega
        subst hceq
        rw [take_length] at hput
        have hall : Q true h1 b1 := by
          refine hok G1 h1 b1 hput fun v hv => ?_
          rcases Finset.mem_insert.mp hv with rfl | hv
          · exact hfirst'
          · rw [← hS, Nat.sub_self] at hv
            simp [pagesOf] at hv
        rw [if_pos rfl, drop_length]
        cases fuel with
        | zero => exact hall
        | succ n =>
          unfold copyoutLoop
          rw [if_pos rfl]
          exact hall
    · intro G1 h1 b1 hk hblock
      refine hbad G1 h1 b1 hk ⟨_, Finset.mem_insert_self _ _, ?_⟩
      rcases hblock with hro | ⟨hv, hno⟩
      · exact .inl hro
      · refine .inr ⟨hv, hno.imp_right fun hfew => ?_⟩
        rw [hcard, if_pos hv]
        omega

/-! ## Stores of user mode -/

/-- The addresses at which `usertrap` resolves faults. -/
def InBounds (v : ℕ) : Prop := pgSize ≤ v * pgSize ∧ v * pgSize < kernBase

instance (v : ℕ) : Decidable (InBounds v) := inferInstanceAs (Decidable (_ ∧ _))

theorem inBounds_div : InBounds (va / pgSize) ↔ pgSize ≤ va ∧ va < kernBase := by
  unfold InBounds pgSize kernBase
  omega

section

variable (hH : Holds L G h) (hroot : G.node id .root = some p.pagetable)
  (hl : UserLeaves (G.leaf id) (pageCount p.sz))

include hH hroot hl

/-- One attempt: the byte is stored, or the trap is handled. -/
theorem userStore_spec {Q : Post (Attempt Unit)}
    (hdone : (G.leaf id (va / pgSize)).Writable → ∀ h', Put L id p.sz va [c] G h G h' →
      Q (.done ()) h' b)
    (htrap : ¬ (G.leaf id (va / pgSize)).Writable →
      ∀ r G' h' b', Faulted L id p true va G h b r G' h' b' →
      Q (if r then .fault else .killed) h' b') : Spec L E Q (userStore L p va c) h b := by
  have hfault : ¬ (G.leaf id (va / pgSize)).Writable → Spec L E Q (trap L p true va) h b := by
    intro hw
    refine wp_seq (wp_mono ?_ (pageFault_spec hH hroot hl : Spec L E _ (pageFault L p true va) h b))
    rintro r h' b' ⟨G', hf⟩
    have hq := htrap hw r G' h' b' hf
    cases r with
    | true | false => exact hq
  refine wp_seq (translate_spec hH hroot ?_ ?_)
  · intro hnone
    refine hfault fun hw => ?_
    have := hnone (G.leaf id (va / pgSize)).ppn
    rw [maps_iff.mpr ⟨hw.1, hw.2.1, rfl⟩] at this
    cases this
  · intro hm
    dsimp only
    split
    · rename_i hw
      obtain ⟨hv, hu, _⟩ := maps_iff.mp hm
      refine wp_seq (memmove_spec (hH.own_leaf hm hw) ?_)
      refine hdone ⟨hv, hu, hw⟩ _ (.of_write hH hm (hH.writable _ _ _ hm hw) ?_ _)
      have : va % pgSize < pgSize := Nat.mod_lt _ (by decide)
      exact this
    · rename_i hw
      exact hfault fun hx => hw hx.2.2

/-- A load leaves user memory as it is. -/
theorem userLoad_spec {Q : Post (Attempt UInt8)}
    (hQ : ∀ r G' h' b', Same L id p.sz G h G' h' → Q r h' b') :
    Spec L E Q (userLoad L p va) h b := by
  have hfault : Spec L E Q (trap L p false va) h b := by
    refine wp_seq
      (wp_mono ?_ (pageFault_spec hH hroot hl : Spec L E _ (pageFault L p false va) h b))
    rintro r h' b' ⟨G', hf⟩
    cases r with
    | true | false => exact hQ _ G' h' b' hf.same
  refine wp_seq (translate_spec hH hroot (fun _ => hfault) ?_)
  intro hm
  dsimp only
  split
  · exact wp_seq (readBytes_spec (hH.cell_leaf hm) (hQ _ G h b (.refl hH id _)))
  · exact hfault

/-- A byte is stored, if need be at the second attempt. -/
theorem storeByte_spec {Q : Post Bool} {k : K Bool} (hva : va < p.sz)
    (hleg : (G.leaf id (va / pgSize)).Writable ∨ LegalFault (G.leaf id (va / pgSize)) true ∧ 3 ≤ b)
    (hok : ∀ G' h' b', Put L id p.sz va [c] G h G' h' → (G'.leaf id (va / pgSize)).Writable →
      ((G.leaf id (va / pgSize)).Writable ∧ b' = b ∨
        ¬ (G.leaf id (va / pgSize)).Writable ∧ InBounds (va / pgSize) ∧ b ≤ b' + 3) →
      Spec L E Q k h' b')
    (hbad : ∀ G' h' b', Kept L id p.sz G h G' h' → ¬ (G.leaf id (va / pgSize)).Writable →
      ¬ InBounds (va / pgSize) → Q false h' b') :
    Spec L E Q
      (do
        match ← userStore L p va c with
        | .done () => k
        | .killed => .ret false
        | .fault => do
          match ← userStore L p va c with
          | .done () => k
          | .killed | .fault => .ret false) h b := by
  refine wp_seq (userStore_spec hH hroot hl ?_ ?_)
  · intro hw h' hput
    exact hok G h' b hput hw (.inl ⟨hw, rfl⟩)
  · intro hw r G1 h1 b1 hf
    obtain ⟨hleg, hb⟩ := hleg.resolve_left hw
    have hres := hf.resolved hva hleg hb
    rw [← inBounds_div] at hres
    cases r with
    | false =>
      refine hbad G1 h1 b1 hf.same.toKept hw fun hin => ?_
      cases (hres.mpr hin).1
    | true =>
      by_cases hin : InBounds (va / pgSize)
      · obtain ⟨_, hperm⟩ := hres.mpr hin
        have hw1 : (G1.leaf id (va / pgSize)).Writable := by
          unfold Pte.permits at hperm
          simp only [Bool.and_eq_true, if_true] at hperm
          exact ⟨hperm.1.1, hperm.1.2, hperm.2⟩
        have hroot1 := (hf.same.frame.root id).trans hroot
        refine wp_seq (userStore_spec hf.same.holds hroot1 (hl.touch hf.same.leaf) ?_ ?_)
        · intro _ h2 hput
          refine hok G1 h2 b1 (.of_same hf.same hf.other hput ⟨0, Nat.one_pos, rfl⟩) hw1 ?_
          exact .inr ⟨hw, hin, hf.spent rfl⟩
        · exact fun hno => absurd hw1 hno
      · have hroot1 := (hf.same.frame.root id).trans hroot
        refine wp_seq (userStore_spec hf.same.holds hroot1 (hl.touch hf.same.leaf) ?_ ?_)
        · intro hw1 h2 _
          refine absurd (hres.mp ⟨rfl, ?_⟩) hin
          unfold Pte.permits
          rw [hw1.1, hw1.2.1, if_pos rfl, hw1.2.2]
          rfl
        · intro _ r G2 h2 b2 hf2
          cases r with
          | true | false => exact hbad G2 h2 b2 (hf.same.trans hf2.same).toKept hw hin

end

/-- Stores of `src` from `va` on, each tried again after a fault. -/
def userStores (L : Layout) (p : Cur) : ℕ → List UInt8 → K Bool
  | _, [] => .ret true
  | va, c :: src => do
    match ← userStore L p va c with
    | .done () => userStores L p (va + 1) src
    | .killed => .ret false
    | .fault => do
      match ← userStore L p va c with
      | .done () => userStores L p (va + 1) src
      | .killed | .fault => .ret false

/-- The pages of the range at which user mode faults when it stores. -/
def faulting (f : ℕ → Pte) (va len : ℕ) : Finset ℕ :=
  (pagesOf va len).filter fun v => ¬ (f v).Writable

theorem mem_pagesOf_succ {len : ℕ} :
    v ∈ pagesOf va (len + 1) ↔ v = va / pgSize ∨ v ∈ pagesOf (va + 1) len := by
  rw [mem_pagesOf, mem_pagesOf]
  constructor
  · rintro ⟨i, hi, rfl⟩
    cases i with
    | zero => exact .inl rfl
    | succ i => exact .inr ⟨i, Nat.lt_of_succ_lt_succ hi, by rw [Nat.add_right_comm, Nat.add_assoc]⟩
  · rintro (rfl | ⟨i, hi, rfl⟩)
    · exact ⟨0, Nat.succ_pos _, rfl⟩
    · exact ⟨i + 1, Nat.succ_lt_succ hi, by rw [Nat.add_right_comm, Nat.add_assoc]⟩

/-- The pages left to fault after the first byte. -/
theorem faulting_succ {f f' : ℕ → Pte} {len : ℕ} (hw : (f' (va / pgSize)).Writable)
    (hkeep : ∀ w, w ≠ va / pgSize → f' w = f w) :
    faulting f' (va + 1) len ⊆ (faulting f va (len + 1)).erase (va / pgSize) := by
  intro v hv
  obtain ⟨hmem, hnot⟩ := Finset.mem_filter.mp hv
  have hne : v ≠ va / pgSize := by
    rintro rfl
    exact hnot hw
  rw [hkeep v hne] at hnot
  exact Finset.mem_erase.mpr ⟨hne, Finset.mem_filter.mpr ⟨mem_pagesOf_succ.mpr (.inr hmem), hnot⟩⟩

/-- With enough free pages the stores succeed where `usertrap` resolves the faults. -/
theorem userStores_spec {Q : Post Bool} (hH : Holds L G h)
    (hroot : G.node id .root = some p.pagetable)
    (hl : UserLeaves (G.leaf id) (pageCount p.sz)) (hsz : va + src.length ≤ p.sz)
    (hleg : ∀ v ∈ pagesOf va src.length, (G.leaf id v).Writable ∨ LegalFault (G.leaf id v) true)
    (hb : 3 * (faulting (G.leaf id) va src.length).card ≤ b)
    (hok : ∀ G' h' b', Put L id p.sz va src G h G' h' →
      (∀ v ∈ pagesOf va src.length, (G.leaf id v).Writable ∨ InBounds v) → Q true h' b')
    (hbad : ∀ G' h' b', Kept L id p.sz G h G' h' →
      (∃ v ∈ pagesOf va src.length, ¬ (G.leaf id v).Writable ∧ ¬ InBounds v) → Q false h' b') :
    Spec L E Q (userStores L p va src) h b := by
  induction src generalizing va G h b with
  | nil => exact hok G h b (.nil hH id _ va) fun v hv => by simp [pagesOf] at hv
  | cons c src ih =>
    rw [length_cons] at hsz hleg hb hok hbad
    have hfirst : va / pgSize ∈ pagesOf va (src.length + 1) := mem_pagesOf_succ.mpr (.inl rfl)
    have hmem : ¬ (G.leaf id (va / pgSize)).Writable →
        va / pgSize ∈ faulting (G.leaf id) va (src.length + 1) :=
      fun hw => Finset.mem_filter.mpr ⟨hfirst, hw⟩
    unfold userStores
    refine storeByte_spec hH hroot hl (by omega) ?_ ?_ ?_
    · by_cases hw : (G.leaf id (va / pgSize)).Writable
      · exact .inl hw
      · have := Finset.card_pos.mpr ⟨_, hmem hw⟩
        exact .inr ⟨(hleg _ hfirst).resolve_left hw, by omega⟩
    · intro G1 h1 b1 hput hw1 hcase
      have hkeep : ∀ w, w ≠ va / pgSize → G1.leaf id w = G.leaf id w := by
        intro w hne
        refine hput.keep w fun i hi hiw => hne ?_
        rw [← hiw, Nat.lt_one_iff.mp hi]
        rfl
      have hsub : faulting (G1.leaf id) (va + 1) src.length ⊆
          (faulting (G.leaf id) va (src.length + 1)).erase (va / pgSize) := faulting_succ hw1 hkeep
      have hb1 : 3 * (faulting (G1.leaf id) (va + 1) src.length).card ≤ b1 := by
        have hle := Finset.card_le_card hsub
        rcases hcase with ⟨_, rfl⟩ | ⟨hw, _, hb'⟩
        · have := Finset.card_erase_le (a := va / pgSize)
            (s := faulting (G.leaf id) va (src.length + 1))
          omega
        · rw [Finset.card_erase_of_mem (hmem hw)] at hle
          have := Finset.card_pos.mpr ⟨_, hmem hw⟩
          omega
      refine ih hput.holds ((hput.frame.root id).trans hroot) (hl.touch hput.leaf)
        (by omega) ?_ hb1 ?_ ?_
      · intro v hv
        by_cases hne : v = va / pgSize
        · exact .inl (hne ▸ hw1)
        · rw [hkeep v hne]
          exact hleg v (mem_pagesOf_succ.mpr (.inr hv))
      · intro G2 h2 b2 hput2 hall
        refine hok G2 h2 b2 (hput.append hput2) fun v hv => ?_
        by_cases hne : v = va / pgSize
        · rw [hne]
          exact hcase.imp And.left fun hx => hx.2.1
        · rw [← hkeep v hne]
          exact hall v ((mem_pagesOf_succ.mp hv).resolve_left hne)
      · rintro G2 h2 b2 hk ⟨v, hv, hnot, hout⟩
        refine hbad G2 h2 b2 (hput.toKept.trans hk) ⟨v, mem_pagesOf_succ.mpr (.inr hv), ?_, hout⟩
        rw [← hkeep v]
        · exact hnot
        · rintro rfl
          exact hnot hw1
    · intro G1 h1 b1 hk hw hout
      exact hbad G1 h1 b1 hk ⟨_, hfirst, hw, hout⟩

end Xv6.Vm
