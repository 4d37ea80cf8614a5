/-
  The requests of the disk driver.

  A thread that waits for its buffer has a chain of three descriptors (`Formatted`). The chains of
  two threads are disjoint, and a descriptor that is in none of them is free (`Chains`). A head that
  has been submitted and not yet handled is in the available ring, with the device or in the used
  ring, and in one place only; these heads are those of the threads whose buffer is with the disk
  (`Flow`). As there are `NUM` descriptors, no ring ever has more than `NUM` elements.
-/
import Xv6.Virtio.Model

namespace Xv6.Virtio

open Lib Function List Ring

variable {T B : Type}

/-! ## The invariant -/

namespace St

/-- The heads that have been submitted and not been handled. -/
def pending (s : St T B) : List Ix := s.avail.contents ++ s.taken ++ s.used.contents

/-- Three descriptors that are linked. -/
structure Linked (s : St T B) (c : Chain) : Prop where
  nodup : c.ixs.Nodup
  busy : ∀ i ∈ c.ixs, s.free i = false
  head : (s.desc c.head).hasNext = true ∧ (s.desc c.head).next = c.mid
  mid : (s.desc c.mid).hasNext = true ∧ (s.desc c.mid).next = c.tail
  tail : (s.desc c.tail).hasNext = false ∧ (s.desc c.tail).addr = .status c.head

/-- The chain of a request for buffer `b`. -/
structure Formatted (s : St T B) (b : B) (c : Chain) : Prop extends Linked s c where
  buf : (s.info c.head).b = some b

structure Chains (s : St T B) : Prop where
  formatted : ∀ t b c, s.pc t = .wait b c → s.Formatted b c
  apart : ∀ t u b d c e, s.pc t = .wait b c → s.pc u = .wait d e → ∀ i ∈ c.ixs, i ∈ e.ixs → t = u
  cover : ∀ i, s.free i = true ∨ ∃ t b c, s.pc t = .wait b c ∧ i ∈ c.ixs

structure Flow (s : St T B) : Prop where
  nodup : s.pending.Nodup
  heads : ∀ h, h ∈ s.pending ↔ ∃ t b c, s.pc t = .wait b c ∧ c.head = h ∧ s.disk b = true
  status : ∀ h ∈ s.used.contents, (s.info h).status = 0

/-- The rings are queues, and the device returns what it has taken. -/
structure Hist (tr : List (Ev T B × Moved)) (avail used : Ring Ix num 16) (taken : List Ix) :
    Prop where
  submits : submitted tr = consumed tr ++ avail.contents
  returns : completed tr = handled tr ++ used.contents
  takes : (consumed tr).Perm (completed tr ++ taken)

end St

/-- The thread is in `virtio_disk_rw` with this buffer. -/
def Pc.Uses (b : B) : Pc B → Prop
  | .out => False
  | .alloc d _ | .wait d _ => d = b

open St in
structure St.Inv (tr : List (Ev T B × Moved)) (s : St T B) : Prop where
  quiet : s.panicked = none
  chains : s.Chains
  flow : s.Flow
  hist : Hist tr s.avail s.used s.taken
  lock : ∀ t b, (s.pc t).Uses b → s.lock b = some t

section

variable {s s' : St T B} {b : B} {c : Chain} {t : T} {tr : List (Ev T B × Moved)} {h i : Ix}
  {l : Ev T B × Moved}

theorem Chain.head_mem (c : Chain) : c.head ∈ c.ixs := mem_cons_self

theorem mem_ixs : i ∈ c.ixs ↔ i = c.head ∨ i = c.mid ∨ i = c.tail := by simp [Chain.ixs]

theorem num_dvd : num ∣ 2 ^ 16 := by decide

theorem num_lt : num < 2 ^ 16 := by decide

/-! ## Descriptors -/

theorem allocDesc_some (ha : s.allocDesc = (some i, s')) :
    s.free i = true ∧ s' = { s with free := update s.free i false } := by
  unfold St.allocDesc at ha
  split at ha
  · rename_i j hj
    cases ha
    exact ⟨by simpa using List.find?_some hj, rfl⟩
  · cases ha

theorem allocDesc_none (ha : s.allocDesc = (none, s')) : s' = s := by
  unfold St.allocDesc at ha
  split at ha
  · cases ha
  · cases ha
    rfl

/-- What `free_desc` does to a descriptor that is not free. -/
def St.freed (s : St T B) (i : Ix) : St T B :=
  { s with
    desc := update s.desc i ⟨.null, 0, false, false, 0⟩
    free := update s.free i true }

theorem freeDesc_busy (hi : s.free i = false) : s.freeDesc i = s.freed i := by
  unfold St.freeDesc
  rw [dif_pos i.isLt, if_neg (by rw [hi]; exact nofun)]
  rfl

/-- Only descriptors that are free are cleared when there are fewer than three of them. -/
theorem alloc3Desc_none (ha : s.alloc3Desc = (none, s')) :
    ∃ desc, s' = { s with desc := desc } ∧ ∀ k, s.free k = false → desc k = s.desc k := by
  unfold St.alloc3Desc at ha
  rcases h1 : s.allocDesc with ⟨_ | i, s1⟩
  · rw [h1] at ha
    cases ha
    exact ⟨s.desc, allocDesc_none h1, fun _ _ => rfl⟩
  · rw [h1] at ha
    obtain ⟨hi, rfl⟩ := allocDesc_some h1
    dsimp only at ha
    -- what `free_desc` does to a descriptor that has just been allocated
    have hself : update s.free i false i = false := update_self ..
    have hback : update (update s.free i false) i true = s.free := by
      rw [update_idem, ← hi, update_eq_self]
    have hkeep : ∀ k, s.free k = false → k ≠ i := by
      rintro k hk rfl
      rw [hi] at hk
      cases hk
    rcases h2 : St.allocDesc { s with free := update s.free i false } with ⟨_ | j, s2⟩
    · rw [h2] at ha
      cases ha
      refine ⟨update s.desc i ⟨.null, 0, false, false, 0⟩, ?_, fun k hk =>
        update_of_ne (hkeep k hk) ..⟩
      rw [allocDesc_none h2, freeDesc_busy hself]
      unfold St.freed
      dsimp only
      rw [hback]
    · rw [h2] at ha
      obtain ⟨hj, rfl⟩ := allocDesc_some h2
      dsimp only at ha hj
      have hji : j ≠ i := by
        rintro rfl
        rw [hself] at hj
        cases hj
      rw [update_of_ne hji] at hj
      have hkeep' : ∀ k, s.free k = false → k ≠ j := by
        rintro k hk rfl
        rw [hj] at hk
        cases hk
      rcases h3 : St.allocDesc { s with free := update (update s.free i false) j false } with
        ⟨_ | k, s3⟩
      · rw [h3] at ha
        cases ha
        refine ⟨update (update s.desc i ⟨.null, 0, false, false, 0⟩) j ⟨.null, 0, false, false, 0⟩,
          ?_,
          fun k hk => ?_⟩
        · have h4 : update (update s.free i false) j false i = false := by
            rw [update_of_ne hji.symm, hself]
          have h5 : update (update (update s.free i false) j false) i true j = false := by
            rw [update_of_ne hji, update_self]
          have h6 : update (update (update (update s.free i false) j false) i true) j true =
              s.free := by
            funext k
            by_cases hkj : k = j
            · rw [hkj, update_self, hj]
            · rw [update_of_ne hkj]
              by_cases hki : k = i
              · rw [hki, update_self, hi]
              · rw [update_of_ne hki, update_of_ne hkj, update_of_ne hki]
          have h7 := freeDesc_busy (s := { s with free := update (update s.free i false) j false })
            h4
          rw [allocDesc_none h3, h7]
          unfold St.freed
          dsimp only
          rw [freeDesc_busy h5]
          unfold St.freed
          dsimp only
          rw [h6]
        · rw [update_of_ne (hkeep' k hk), update_of_ne (hkeep k hk)]
      · rw [h3] at ha
        cases ha

/-- Three descriptors that were free are allocated. -/
theorem alloc3Desc_some (ha : s.alloc3Desc = (some c, s')) :
    c.ixs.Nodup ∧ (∀ i ∈ c.ixs, s.free i = true) ∧
      ∃ free, s' = { s with free := free } ∧
      ∀ i, free i = if i ∈ c.ixs then false else s.free i := by
  unfold St.alloc3Desc at ha
  rcases h1 : s.allocDesc with ⟨_ | i, s1⟩
  · rw [h1] at ha
    cases ha
  · rw [h1] at ha
    obtain ⟨hi, rfl⟩ := allocDesc_some h1
    dsimp only at ha
    rcases h2 : St.allocDesc { s with free := update s.free i false } with ⟨_ | j, s2⟩
    · rw [h2] at ha
      cases ha
    · rw [h2] at ha
      obtain ⟨hj, rfl⟩ := allocDesc_some h2
      dsimp only at ha hj
      have hji : j ≠ i := by
        rintro rfl
        rw [update_self] at hj
        cases hj
      rw [update_of_ne hji] at hj
      rcases h3 : St.allocDesc { s with free := update (update s.free i false) j false } with
        ⟨_ | k, s3⟩
      · rw [h3] at ha
        cases ha
      · rw [h3] at ha
        obtain ⟨hk, rfl⟩ := allocDesc_some h3
        cases ha
        dsimp only at hk
        have hkj : k ≠ j := by
          rintro rfl
          rw [update_self] at hk
          cases hk
        rw [update_of_ne hkj] at hk
        have hki : k ≠ i := by
          rintro rfl
          rw [update_self] at hk
          cases hk
        rw [update_of_ne hki] at hk
        refine ⟨?_, ?_, _, rfl, fun m => ?_⟩
        · simp [Chain.ixs, hji.symm, hki.symm, hkj.symm]
        · intro m hm
          rcases mem_ixs.mp hm with rfl | rfl | rfl
          · exact hi
          · exact hj
          · exact hk
        · simp only [mem_ixs, update_apply]
          by_cases h1 : m = k
          · simp [h1]
          · by_cases h2 : m = j
            · simp [h2]
            · simp [h1, h2]

theorem freeChain_next (n : ℕ) (hi : s.free i = false) (hq : s.panicked = none)
    (hn : (s.desc i).hasNext = true) :
    St.freeChain (n + 1) i s = St.freeChain n (s.desc i).next (s.freed i) := by
  have hq' : ¬ (s.freed i).panicked.isSome = true := by
    show ¬ s.panicked.isSome = true
    rw [hq]
    exact nofun
  rw [St.freeChain, dif_pos i.isLt]
  rw [freeDesc_busy hi, if_neg hq', if_pos hn]

theorem freeChain_last (n : ℕ) (hi : s.free i = false) (hq : s.panicked = none)
    (hn : (s.desc i).hasNext = false) :
    St.freeChain (n + 1) i s = s.freed i := by
  have hq' : ¬ (s.freed i).panicked.isSome = true := by
    show ¬ s.panicked.isSome = true
    rw [hq]
    exact nofun
  rw [St.freeChain, dif_pos i.isLt]
  rw [freeDesc_busy hi, if_neg hq', if_neg (by rw [hn]; exact nofun)]

/-- `free_chain` frees the three descriptors of a chain. -/
theorem freeChain_linked (hf : s.Linked c) (hq : s.panicked = none) :
    St.freeChain num c.head s = ((s.freed c.head).freed c.mid).freed c.tail := by
  obtain ⟨hnd, hbusy, ⟨hh, hhn⟩, ⟨hm, hmn⟩, ⟨ht, -⟩⟩ := hf
  simp only [Chain.ixs, nodup_cons, mem_cons, not_mem_nil, or_false, not_or] at hnd
  obtain ⟨⟨h1, h2⟩, h3, -⟩ := hnd
  have hdm : (s.freed c.head).desc c.mid = s.desc c.mid := update_of_ne (Ne.symm h1) ..
  have hfm : (s.freed c.head).free c.mid = false :=
    (update_of_ne (Ne.symm h1) ..).trans (hbusy _ (mem_ixs.mpr (.inr (.inl rfl))))
  have hdt : ((s.freed c.head).freed c.mid).desc c.tail = s.desc c.tail :=
    (update_of_ne (Ne.symm h3) ..).trans (update_of_ne (Ne.symm h2) ..)
  have hft : ((s.freed c.head).freed c.mid).free c.tail = false :=
    (update_of_ne (Ne.symm h3) ..).trans
      ((update_of_ne (Ne.symm h2) ..).trans (hbusy _ (mem_ixs.mpr (.inr (.inr rfl)))))
  show St.freeChain (5 + 1 + 1 + 1) (c.head : ℕ) s = _
  rw [freeChain_next _ (hbusy _ c.head_mem) hq hh, hhn,
    freeChain_next _ hfm hq (by rw [hdm]; exact hm), hdm, hmn,
    freeChain_last _ hft hq (by rw [hdt]; exact ht)]

theorem freed3_free (i : Ix) : (((s.freed c.head).freed c.mid).freed c.tail).free i =
    if i ∈ c.ixs then true else s.free i := by
  simp only [St.freed, update_apply, mem_ixs]
  by_cases h1 : i = c.tail
  · simp [h1]
  · by_cases h2 : i = c.mid
    · simp [h2]
    · simp [h1, h2]

theorem freed3_desc (hi : i ∉ c.ixs) :
    (((s.freed c.head).freed c.mid).freed c.tail).desc i = s.desc i := by
  have h : ¬ (i = c.head ∨ i = c.mid ∨ i = c.tail) := fun h' => hi (mem_ixs.mpr h')
  push Not at h
  simp only [St.freed, update_of_ne h.1, update_of_ne h.2.1, update_of_ne h.2.2]

/-! ## The parts of the invariant -/

/-- A chain is as it was when its descriptors and its buffer are. -/
theorem St.Formatted.same (hf : s.Formatted b c) (hfree : ∀ i ∈ c.ixs, s'.free i = s.free i)
    (hdesc : ∀ i ∈ c.ixs, s'.desc i = s.desc i) (hinfo : (s'.info c.head).b = (s.info c.head).b) :
    s'.Formatted b c := by
  have hm : c.mid ∈ c.ixs := mem_ixs.mpr (.inr (.inl rfl))
  have ht : c.tail ∈ c.ixs := mem_ixs.mpr (.inr (.inr rfl))
  refine ⟨⟨hf.nodup, fun i hi => (hfree i hi).trans (hf.busy i hi), ?_, ?_, ?_⟩, hinfo.trans hf.buf⟩
  · rw [hdesc _ c.head_mem]
    exact hf.head
  · rw [hdesc _ hm]
    exact hf.mid
  · rw [hdesc _ ht]
    exact hf.tail

/-- The heads are spread differently over the rings and the device. -/
theorem St.Flow.perm (hf : s.Flow) (hp : s'.pending.Perm s.pending) (hpc : s'.pc = s.pc)
    (hdisk : s'.disk = s.disk)
    (hst : ∀ h ∈ s'.used.contents, (s'.info h).status = 0) : s'.Flow := by
  refine ⟨hp.nodup_iff.mpr hf.nodup, fun h => ?_, hst⟩
  rw [hp.mem_iff, hf.heads h, hpc, hdisk]

/-- The list of the heads is shorter than the rings as long as a descriptor is missing from it. -/
theorem St.Flow.length_lt (hf : s.Flow) (hi : i ∉ s.pending) : s.pending.length < num := by
  have hnd : (i :: s.pending).Nodup := List.nodup_cons.mpr ⟨hi, hf.nodup⟩
  have := hnd.length_le_card
  rwa [Fintype.card_fin] at this

theorem St.Flow.length_le (hf : s.Flow) : s.pending.length ≤ num := by
  have := hf.nodup.length_le_card
  rwa [Fintype.card_fin] at this

theorem len_eq_length (r : Ring Ix num 16) : r.len = r.contents.length := by simp [Ring.contents]

theorem St.length_pending (s : St T B) :
    s.pending.length = s.avail.len + s.taken.length + s.used.len := by
  rw [St.pending, length_append, length_append, len_eq_length, len_eq_length]

theorem submitted_snoc : submitted (tr ++ [l]) = submitted tr ++ l.2.submitted := by
  simp [submitted]

theorem consumed_snoc : consumed (tr ++ [l]) = consumed tr ++ l.2.consumed := by simp [consumed]

theorem completed_snoc : completed (tr ++ [l]) = completed tr ++ l.2.completed := by
  simp [completed]

theorem handled_snoc : handled (tr ++ [l]) = handled tr ++ l.2.handled := by simp [handled]

/-- A step that moves nothing. -/
theorem St.Hist.quiet {avail used : Ring Ix num 16} {taken : List Ix}
    (hh : St.Hist tr avail used taken) (e : Ev T B) :
    St.Hist (tr ++ [(e, ({} : Moved))]) avail used taken := by
  refine ⟨?_, ?_, ?_⟩
  · rw [submitted_snoc, consumed_snoc]
    simpa using hh.submits
  · rw [completed_snoc, handled_snoc]
    simpa using hh.returns
  · rw [completed_snoc, consumed_snoc]
    simpa using hh.takes

end

/-! ## Steps -/

section

variable [DecidableEq T] [DecidableEq B] {s s' : St T B} {b : B} {c : Chain} {t : T}
  {tr : List (Ev T B × Moved)}
  {h i : Ix} {blockno : B → ℕ} {w : Bool}

omit [DecidableEq T] [DecidableEq B] in
/-- Two threads are not in `virtio_disk_rw` with one buffer. -/
theorem St.Inv.same_thread (hi : s.Inv tr) {u : T} (ht : (s.pc t).Uses b) (hu : (s.pc u).Uses b) :
    t = u :=
  Option.some.inj ((hi.lock t b ht).symm.trans (hi.lock u b hu))

omit [DecidableEq T] [DecidableEq B] in
theorem uses_wait (hpc : s.pc t = .wait b c) : (s.pc t).Uses b := by
  rw [hpc]
  exact rfl

omit [DecidableEq T] [DecidableEq B] in
/-- The locks of buffers change. -/
theorem St.Inv.setLock (hi : s.Inv tr) {lock : B → Option T}
    (hl : ∀ t b, (s.pc t).Uses b → lock b = some t)
    (e : Ev T B) : St.Inv (tr ++ [(e, ({} : Moved))]) { s with lock := lock } where
  quiet := hi.quiet
  chains := ⟨fun t b c hpc => (hi.chains.formatted t b c hpc).same (fun _ _ => rfl) (fun _ _ => rfl)
    rfl,
    hi.chains.apart, hi.chains.cover⟩
  flow := hi.flow.perm (.refl _) rfl rfl hi.flow.status
  hist := hi.hist.quiet e
  lock := hl

omit [DecidableEq B] in
/-- The locks when thread `t` moves. -/
theorem St.Inv.lock_jump (hi : s.Inv tr) {pc : Pc B} (ht : ∀ d, pc.Uses d → s.lock d = some t)
    (u : T) (d : B)
    (hu : (update s.pc t pc u).Uses d) : s.lock d = some u := by
  by_cases hut : u = t
  · rw [hut, update_self] at hu
    rw [hut]
    exact ht d hu
  · rw [update_of_ne hut] at hu
    exact hi.lock u d hu

omit [DecidableEq B] in
/-- There are not enough descriptors; the thread sleeps. -/
theorem St.Inv.sleep (hi : s.Inv tr) (hout : ∀ d e, s.pc t ≠ .wait d e) (hl : s.lock b = some t)
    (ha : s.alloc3Desc = (none, s')) (e : Ev T B) :
    (s'.jump t (.alloc b w)).Inv (tr ++ [(e, ({} : Moved))]) := by
  obtain ⟨desc, rfl, hdesc⟩ := alloc3Desc_none ha
  have hself : update s.pc t (.alloc b w) t = .alloc b w := update_self ..
  have hne : ∀ u, u ≠ t → update s.pc t (.alloc b w) u = s.pc u := fun u hu => update_of_ne hu ..
  -- the threads that wait are the same
  have hwait : ∀ u d e, update s.pc t (.alloc b w) u = .wait d e ↔ s.pc u = .wait d e := by
    intro u d e
    by_cases hu : u = t
    · rw [hu, hself]
      exact ⟨nofun, fun h' => absurd h' (hout d e)⟩
    · rw [hne u hu]
  refine ⟨hi.quiet, ⟨fun u d e hu => ?_, fun u v d f e g hu hv => ?_, fun j => ?_⟩,
    ⟨hi.flow.nodup, fun j => ?_,
    hi.flow.status⟩, hi.hist.quiet e, hi.lock_jump fun d hd => (show b = d from hd) ▸ hl⟩
  · have hf := hi.chains.formatted u d e ((hwait u d e).mp hu)
    exact hf.same (fun _ _ => rfl) (fun k hk => hdesc k (hf.busy k hk)) rfl
  · exact hi.chains.apart u v d f e g ((hwait u d e).mp hu) ((hwait v f g).mp hv)
  · refine (hi.chains.cover j).imp id fun ⟨u, d, e, hu, hj⟩ => ⟨u, d, e, (hwait u d e).mpr hu, hj⟩
  · refine (hi.flow.heads j).trans ⟨fun ⟨u, d, e, hu, hj⟩ => ⟨u, d, e, (hwait u d e).mpr hu, hj⟩,
      fun ⟨u, d, e, hu, hj⟩ => ⟨u, d, e, (hwait u d e).mp hu, hj⟩⟩

omit [DecidableEq T] in
/-- The new chain is formatted. -/
theorem submit_formatted (blockno : B → ℕ) (b : B) (w : Bool) (hnd : c.ixs.Nodup)
    (hfree : ∀ i ∈ c.ixs, s.free i = false) :
    (St.submit blockno b w c s).Formatted b c := by
  simp only [Chain.ixs, nodup_cons, mem_cons, not_mem_nil, or_false, not_or] at hnd
  obtain ⟨⟨h1, h2⟩, h3, -⟩ := hnd
  refine ⟨⟨by simp [Chain.ixs, h1, h2, h3], hfree, ?_, ?_, ?_⟩, ?_⟩
  · simp [St.submit, update_of_ne h1, update_of_ne h2]
  · simp [St.submit, update_of_ne h3]
  · simp [St.submit]
  · simp [St.submit]

omit [DecidableEq T] in
theorem submit_desc (blockno : B → ℕ) (b : B) (w : Bool) (hi : i ∉ c.ixs) :
    (St.submit blockno b w c s).desc i = s.desc i := by
  have h : ¬ (i = c.head ∨ i = c.mid ∨ i = c.tail) := fun h' => hi (mem_ixs.mpr h')
  push Not at h
  simp only [St.submit, update_of_ne h.1, update_of_ne h.2.1, update_of_ne h.2.2]

/-- A request is submitted. -/
theorem St.Inv.submit (hi : s.Inv tr) (hout : ∀ d e, s.pc t ≠ .wait d e) (hl : s.lock b = some t)
    (ha : s.alloc3Desc = (some c, s')) (e : Ev T B) :
    ((s'.submit blockno b w c).jump t (.wait b c)).Inv
      (tr ++ [(e, ({ submitted := [c.head] } : Moved))]) := by
  obtain ⟨hnd, hwas, free, rfl, hfree⟩ := alloc3Desc_some ha
  set s1 := (St.submit blockno b w c { s with free := free }).jump t (.wait b c) with hs1
  have hself : s1.pc t = .wait b c := update_self ..
  have hne : ∀ u, u ≠ t → s1.pc u = s.pc u := fun u hu => update_of_ne hu ..
  -- the chains of others have no descriptor of the new one
  have hold : ∀ u d e, s.pc u = .wait d e → ∀ i ∈ e.ixs, i ∉ c.ixs := by
    intro u d e hu i hie hic
    have := (hi.chains.formatted u d e hu).busy i hie
    rw [hwas i hic] at this
    cases this
  have hother : ∀ u d e, s.pc u = .wait d e → u ≠ t ∧ d ≠ b := by
    intro u d e hu
    have hut : u ≠ t := by
      rintro rfl
      exact hout d e hu
    refine ⟨hut, ?_⟩
    rintro rfl
    exact hut (Option.some.inj ((hi.lock u d (uses_wait hu)).symm.trans hl))
  have hnew : c.head ∉ s.pending := by
    intro hp
    obtain ⟨u, d, e, hu, he, -⟩ := (hi.flow.heads c.head).mp hp
    exact hold u d e hu c.head (he ▸ e.head_mem) c.head_mem
  have hlen : s.avail.len < num := by
    have := hi.flow.length_lt hnew
    rw [s.length_pending] at this
    omega
  have havail : s1.avail.contents = s.avail.contents ++ [c.head] :=
    contents_push num_dvd num_lt c.head hlen
  have hpend : s1.pending.Perm (c.head :: s.pending) := by
    show (s1.avail.contents ++ s.taken ++ s.used.contents).Perm
      (c.head :: (s.avail.contents ++ s.taken ++ s.used.contents))
    rw [havail, append_assoc, append_assoc, append_assoc]
    exact perm_middle
  have hinfo : ∀ j, j ≠ c.head → s1.info j = s.info j := fun j hj => update_of_ne hj ..
  have hdisk : ∀ d, d ≠ b → s1.disk d = s.disk d := fun d hd => update_of_ne hd ..
  have hdiskb : s1.disk b = true := update_self ..
  refine ⟨hi.quiet, ⟨fun u d e hu => ?_, fun u v d f e g hu hv j hj hj' => ?_, fun j => ?_⟩,
    ⟨?_, fun j => ?_,
    fun j hj => ?_⟩, ⟨?_, ?_, ?_⟩, hi.lock_jump fun d hd => (show b = d from hd) ▸ hl⟩
  · by_cases hut : u = t
    · rw [hut, hself] at hu
      cases hu
      have hf : (St.submit blockno b w c { s with free := free }).Formatted b c :=
        submit_formatted blockno b w hnd fun i hic => (hfree i).trans (if_pos hic)
      exact hf.same (fun _ _ => rfl) (fun _ _ => rfl) rfl
    · rw [hne u hut] at hu
      have hf := hi.chains.formatted u d e hu
      refine hf.same (fun j hj => ?_) (fun j hj => submit_desc blockno b w (hold u d e hu j hj)) ?_
      · show free j = s.free j
        rw [hfree, if_neg (hold u d e hu j hj)]
      · rw [hinfo e.head fun he => hold u d e hu e.head e.head_mem (he ▸ c.head_mem)]
  · by_cases hut : u = t <;> by_cases hvt : v = t
    · rw [hut, hvt]
    · rw [hut, hself] at hu
      rw [hne v hvt] at hv
      cases hu
      exact absurd hj (hold v f g hv j hj')
    · rw [hvt, hself] at hv
      rw [hne u hut] at hu
      cases hv
      exact absurd hj' (hold u d e hu j hj)
    · rw [hne u hut] at hu
      rw [hne v hvt] at hv
      exact hi.chains.apart u v d f e g hu hv j hj hj'
  · by_cases hjc : j ∈ c.ixs
    · exact .inr ⟨t, b, c, hself, hjc⟩
    · rcases hi.chains.cover j with hj | ⟨u, d, e, hu, hj⟩
      · refine .inl ?_
        show free j = true
        rw [hfree, if_neg hjc, hj]
      · exact .inr ⟨u, d, e, (hne u (hother u d e hu).1).trans hu, hj⟩
  · exact hpend.nodup_iff.mpr (List.nodup_cons.mpr ⟨hnew, hi.flow.nodup⟩)
  · rw [hpend.mem_iff, mem_cons, hi.flow.heads j]
    constructor
    · rintro (rfl | ⟨u, d, e, hu, he, hd⟩)
      · exact ⟨t, b, c, hself, rfl, hdiskb⟩
      · obtain ⟨hut, hdb⟩ := hother u d e hu
        exact ⟨u, d, e, (hne u hut).trans hu, he, (hdisk d hdb).trans hd⟩
    · rintro ⟨u, d, e, hu, he, hd⟩
      by_cases hut : u = t
      · rw [hut, hself] at hu
        cases hu
        exact .inl he.symm
      · rw [hne u hut] at hu
        rw [hdisk d (hother u d e hu).2] at hd
        exact .inr ⟨u, d, e, hu, he, hd⟩
  · have hj : j ∈ s.used.contents := hj
    have hjh : j ≠ c.head := by
      rintro rfl
      exact hnew (mem_append_right _ hj)
    rw [hinfo j hjh]
    exact hi.flow.status j hj
  · rw [submitted_snoc, consumed_snoc, havail, hi.hist.submits]
    simp
  · rw [completed_snoc, handled_snoc, append_nil, append_nil]
    exact hi.hist.returns
  · rw [completed_snoc, consumed_snoc, append_nil, append_nil]
    exact hi.hist.takes

omit [DecidableEq B] in
/-- A request that has been handled ends. -/
theorem St.Inv.finish (hi : s.Inv tr) (hpc : s.pc t = .wait b c) (hd : s.disk b = false)
    (e : Ev T B) :
    (s.resume t b c).Inv (tr ++ [(e, ({} : Moved))]) := by
  have hf := hi.chains.formatted t b c hpc
  have hl : St.Linked { s with info := update s.info c.head { s.info c.head with b := none } } c :=
    ⟨hf.nodup, hf.busy, hf.head, hf.mid, hf.tail⟩
  unfold St.resume
  rw [if_neg (by rw [hd]; exact nofun)]
  dsimp only
  rw [freeChain_linked hl hi.quiet]
  set s0 : St T B := { s with info := update s.info c.head { s.info c.head with b := none } } with
    hs0
  set s1 := (((s0.freed c.head).freed c.mid).freed c.tail).jump t .out with hs1
  have hself : s1.pc t = .out := update_self ..
  have hne : ∀ u, u ≠ t → s1.pc u = s.pc u := fun u hu => update_of_ne hu ..
  have hwait : ∀ u d e, s1.pc u = .wait d e → u ≠ t ∧ s.pc u = .wait d e := by
    intro u d e hu
    have hut : u ≠ t := by
      rintro rfl
      rw [hself] at hu
      cases hu
    exact ⟨hut, hne u hut ▸ hu⟩
  -- the chains of others have no descriptor of the one that is freed
  have hold : ∀ u d e, u ≠ t → s.pc u = .wait d e → ∀ i ∈ e.ixs, i ∉ c.ixs :=
    fun u d e hut hu i hie hic => hut (hi.chains.apart u t d b e c hu hpc i hie hic)
  refine ⟨hi.quiet, ⟨fun u d e hu => ?_, fun u v d f e g hu hv => ?_, fun j => ?_⟩,
    ⟨hi.flow.nodup, fun j => ?_,
    fun j hj => ?_⟩, hi.hist.quiet e, hi.lock_jump fun _ hd => hd.elim⟩
  · obtain ⟨hut, hu⟩ := hwait u d e hu
    have hnot := hold u d e hut hu
    refine (hi.chains.formatted u d e hu).same (fun j hj => ?_)
      (fun j hj => freed3_desc (hnot j hj)) ?_
    · exact (freed3_free j).trans (if_neg (hnot j hj))
    · have heh : e.head ≠ c.head := fun he => hnot e.head e.head_mem (he ▸ c.head_mem)
      show (update s.info c.head _ e.head).b = _
      rw [update_of_ne heh]
  · exact hi.chains.apart u v d f e g (hwait u d e hu).2 (hwait v f g hv).2
  · by_cases hjc : j ∈ c.ixs
    · exact .inl ((freed3_free j).trans (if_pos hjc))
    · rcases hi.chains.cover j with hj | ⟨u, d, e, hu, hj⟩
      · exact .inl ((freed3_free j).trans ((if_neg hjc).trans hj))
      · have hut : u ≠ t := by
          rintro rfl
          rw [hpc] at hu
          cases hu
          exact hjc hj
        exact .inr ⟨u, d, e, (hne u hut).trans hu, hj⟩
  · show j ∈ s.pending ↔ ∃ u d e, s1.pc u = .wait d e ∧ e.head = j ∧ s.disk d = true
    rw [hi.flow.heads j]
    constructor
    · rintro ⟨u, d, e, hu, he, hdd⟩
      have hut : u ≠ t := by
        rintro rfl
        rw [hpc] at hu
        cases hu
        rw [hd] at hdd
        cases hdd
      exact ⟨u, d, e, (hne u hut).trans hu, he, hdd⟩
    · rintro ⟨u, d, e, hu, he⟩
      exact ⟨u, d, e, (hwait u d e hu).2, he⟩
  · show (update s.info c.head { s.info c.head with b := none } j).status = 0
    by_cases hjc : j = c.head
    · rw [hjc, update_self]
      exact hi.flow.status _ (hjc ▸ hj)
    · rw [update_of_ne hjc]
      exact hi.flow.status j hj

omit [DecidableEq T] in
/-- `virtio_disk_intr` handles a request that the device has returned. -/
theorem St.Inv.intr (hi : s.Inv tr) {m : Moved} (hs : s.intr = some (s', m)) (e : Ev T B) :
    s'.Inv (tr ++ [(e, m)]) := by
  obtain ⟨hne, hs⟩ := Option.ite_none_right_eq_some.mp hs
  have hlen : s.used.len ≠ 0 := fun h0 => hne (Ring.len_eq_zero.mp h0)
  have hcons := contents_pop hlen
  have hmem : s.used.head ∈ s.used.contents := by
    rw [hcons]
    exact mem_cons_self
  obtain ⟨t, b, c, hpc, hhead, hdisk⟩ := (hi.flow.heads _).mp (mem_append_right _ hmem)
  have hf := hi.chains.formatted t b c hpc
  have hbuf : (s.info s.used.head).b = some b := hhead ▸ hf.buf
  rw [if_neg (not_not.mpr (hi.flow.status _ hmem)), hbuf] at hs
  cases hs
  -- the head leaves the list, and no other request is for the buffer
  have hpend :
      s.pending.Perm (s.used.head :: (s.avail.contents ++ s.taken ++ s.used.pop.contents)) := by
    rw [St.pending, hcons]
    exact perm_middle
  have hnd := hpend.nodup_iff.mp hi.flow.nodup
  have hother : ∀ u d e, s.pc u = .wait d e → e.head ≠ s.used.head → d ≠ b := by
    rintro u d e hu he rfl
    obtain rfl := hi.same_thread (uses_wait hu) (uses_wait hpc)
    rw [hpc] at hu
    cases hu
    exact he hhead
  refine ⟨hi.quiet, ⟨fun u d e hu => ?_, hi.chains.apart, hi.chains.cover⟩,
    ⟨(List.nodup_cons.mp hnd).2, fun j => ?_,
    fun j hj => ?_⟩, ⟨?_, ?_, ?_⟩, hi.lock⟩
  · exact (hi.chains.formatted u d e hu).same (fun _ _ => rfl) (fun _ _ => rfl) rfl
  · show j ∈ s.avail.contents ++ s.taken ++ s.used.pop.contents ↔
      ∃ u d e, s.pc u = .wait d e ∧ e.head = j ∧ update s.disk b false d = true
    constructor
    · intro hj
      have hjh : j ≠ s.used.head := by
        rintro rfl
        exact (List.nodup_cons.mp hnd).1 hj
      obtain ⟨u, d, e, hu, he, hd⟩ :=
        (hi.flow.heads j).mp (hpend.mem_iff.mpr (mem_cons_of_mem _ hj))
      exact ⟨u, d, e, hu, he, (update_of_ne (hother u d e hu (he ▸ hjh)) ..).trans hd⟩
    · rintro ⟨u, d, e, hu, he, hd⟩
      have hdb : d ≠ b := by
        rintro rfl
        rw [update_self] at hd
        cases hd
      rw [update_of_ne hdb] at hd
      have hj := hpend.mem_iff.mp ((hi.flow.heads j).mpr ⟨u, d, e, hu, he, hd⟩)
      rcases List.mem_cons.mp hj with hj | hj
      · -- it would be the request that has been handled
        have htu : t = u := hi.chains.apart t u b d c e hpc hu c.head c.head_mem
          (by rw [hhead, ← hj, ← he]; exact e.head_mem)
        rw [← htu, hpc] at hu
        cases hu
        exact absurd rfl hdb
      · exact hj
  · exact hi.flow.status j (by rw [hcons]; exact mem_cons_of_mem _ hj)
  · rw [submitted_snoc, consumed_snoc, append_nil, append_nil]
    exact hi.hist.submits
  · rw [completed_snoc, handled_snoc, append_nil, hi.hist.returns, hcons]
    simp
  · rw [completed_snoc, consumed_snoc, append_nil, append_nil]
    exact hi.hist.takes

omit [DecidableEq T] [DecidableEq B] in
/-- The device takes a head. -/
theorem St.Inv.consume (hi : s.Inv tr) {m : Moved} (hs : s.consume = some (s', m)) (e : Ev T B) :
    s'.Inv (tr ++ [(e, m)]) := by
  obtain ⟨hne, hs⟩ := Option.ite_none_right_eq_some.mp hs
  cases hs
  have hlen : s.avail.len ≠ 0 := fun h0 => hne (Ring.len_eq_zero.mp h0)
  have hcons := contents_pop hlen
  refine ⟨hi.quiet, ⟨fun u d e hu => ?_, hi.chains.apart, hi.chains.cover⟩,
    hi.flow.perm ?_ rfl rfl hi.flow.status,
    ⟨?_, ?_, ?_⟩, hi.lock⟩
  · exact (hi.chains.formatted u d e hu).same (fun _ _ => rfl) (fun _ _ => rfl) rfl
  · show (s.avail.pop.contents ++ s.avail.head :: s.taken ++ s.used.contents).Perm s.pending
    rw [St.pending, hcons]
    exact List.perm_middle.append_right _
  · rw [submitted_snoc, consumed_snoc, append_nil, hi.hist.submits, hcons]
    simp
  · rw [completed_snoc, handled_snoc, append_nil, append_nil]
    exact hi.hist.returns
  · rw [completed_snoc, consumed_snoc, append_nil]
    refine (hi.hist.takes.append_right _).trans ?_
    rw [append_assoc]
    exact (perm_append_comm).append_left _

omit [DecidableEq T] [DecidableEq B] in
/-- The status of a request is where its chain says. -/
theorem St.Formatted.statusAddr (hf : s.Formatted b c) : s.statusAddr c.head = .status c.head := by
  unfold St.statusAddr
  rw [hf.head.2]
  dsimp only
  rw [Fin.ofNat_val_eq_self, hf.mid.2, Fin.ofNat_val_eq_self, hf.tail.2]

omit [DecidableEq T] [DecidableEq B] in
/-- The device returns a head. -/
theorem St.Inv.complete (hi : s.Inv tr) {m : Moved} (hs : s.complete h = some (s', m))
    (e : Ev T B) :
    s'.Inv (tr ++ [(e, m)]) := by
  obtain ⟨hmem, hs⟩ := Option.ite_none_right_eq_some.mp hs
  have hp : h ∈ s.pending := mem_append_left _ (mem_append_right _ hmem)
  obtain ⟨t, b, c, hpc, rfl, hdisk⟩ := (hi.flow.heads h).mp hp
  have hf := hi.chains.formatted t b c hpc
  rw [hf.statusAddr] at hs
  cases hs
  have hlen : s.used.len < num := by
    have h1 := hi.flow.length_le
    have h2 := length_pos_of_mem hmem
    rw [s.length_pending] at h1
    omega
  have hused : (s.used.push c.head).contents = s.used.contents ++ [c.head] :=
    contents_push num_dvd num_lt c.head hlen
  have hinfo : ∀ j, (update s.info c.head { s.info c.head with status := 0 } j).b =
      (s.info j).b := by
    intro j
    by_cases hj : j = c.head
    · rw [hj, update_self]
    · rw [update_of_ne hj]
  refine ⟨hi.quiet, ⟨fun u d e hu => ?_, hi.chains.apart, hi.chains.cover⟩,
    hi.flow.perm ?_ rfl rfl fun j hj => ?_,
    ⟨?_, ?_, ?_⟩, hi.lock⟩
  · exact (hi.chains.formatted u d e hu).same (fun _ _ => rfl) (fun _ _ => rfl) (hinfo _)
  · rw [St.pending, hused, ← append_assoc]
    refine List.perm_append_comm.trans ?_
    show (c.head :: (s.avail.contents ++ s.taken.erase c.head ++ s.used.contents)).Perm _
    rw [← cons_append]
    refine List.Perm.append_right _ (List.perm_middle.symm.trans ?_)
    exact (perm_cons_erase hmem).symm.append_left _
  · change j ∈ (s.used.push c.head).contents at hj
    show (update s.info c.head { s.info c.head with status := 0 } j).status = 0
    by_cases hjc : j = c.head
    · rw [hjc, update_self]
    · rw [update_of_ne hjc]
      rw [hused] at hj
      rcases List.mem_append.mp hj with hj | hj
      · exact hi.flow.status j hj
      · exact absurd (List.mem_singleton.mp hj) hjc
  · rw [submitted_snoc, consumed_snoc, append_nil, append_nil]
    exact hi.hist.submits
  · rw [completed_snoc, handled_snoc, append_nil, hused, hi.hist.returns, append_assoc]
  · rw [completed_snoc, consumed_snoc, append_nil, append_assoc]
    refine hi.hist.takes.trans (List.Perm.append_left _ ?_)
    exact perm_cons_erase hmem

theorem St.Inv.attempt (hi : s.Inv tr) (blockno : B → ℕ) (w : Bool)
    (hout : ∀ d e, s.pc t ≠ .wait d e) (hl : s.lock b = some t) (e : Ev T B) :
    (s.attempt blockno t b w).1.Inv (tr ++ [(e, (s.attempt blockno t b w).2)]) := by
  unfold St.attempt
  rcases ha : s.alloc3Desc with ⟨_ | c, s1⟩
  · exact hi.sleep hout hl ha e
  · exact hi.submit hout hl ha e

theorem St.Inv.step (hi : s.Inv tr) {l : Ev T B × Moved} (hs : s.Step blockno l s') :
    s'.Inv (tr ++ [l]) := by
  obtain ⟨e, m⟩ := l
  have hs : s.go blockno e = some (s', m) := by
    have hs : s.act blockno e = some (s', m) := hs
    unfold St.act at hs
    rwa [hi.quiet] at hs
  unfold St.go at hs
  cases e with
  | acquiresleep t b =>
    obtain ⟨hb, hs⟩ := Option.ite_none_right_eq_some.mp hs
    cases hs
    refine hi.setLock (fun u d hu => ?_) _
    have hdb : d ≠ b := by
      rintro rfl
      have := hi.lock u d hu
      rw [hb] at this
      cases this
    rw [update_of_ne hdb]
    exact hi.lock u d hu
  | releasesleep t b =>
    dsimp only at hs
    cases hpc : s.pc t with
    | out =>
      rw [hpc] at hs
      obtain ⟨hb, hs⟩ := Option.ite_none_right_eq_some.mp hs
      cases hs
      refine hi.setLock (fun u d hu => ?_) _
      have hdb : d ≠ b := by
        rintro rfl
        have := hi.lock u d hu
        rw [hb] at this
        cases this
        rw [hpc] at hu
        exact hu
      rw [update_of_ne hdb]
      exact hi.lock u d hu
    | _ =>
      rw [hpc] at hs
      cases hs
  | rw t b w =>
    dsimp only at hs
    cases hpc : s.pc t with
    | out =>
      rw [hpc] at hs
      obtain ⟨hb, hs⟩ := Option.ite_none_right_eq_some.mp hs
      have ha := hi.attempt blockno w (fun d e => by rw [hpc]; exact nofun) hb (.rw t b w)
      rwa [Option.some.inj hs] at ha
    | _ =>
      rw [hpc] at hs
      cases hs
  | resume t =>
    dsimp only at hs
    cases hpc : s.pc t with
    | out =>
      rw [hpc] at hs
      cases hs
    | alloc b w =>
      rw [hpc] at hs
      have hb : s.lock b = some t := hi.lock t b (by rw [hpc]; exact rfl)
      have ha := hi.attempt blockno w (fun d e => by rw [hpc]; exact nofun) hb (.resume t)
      rwa [Option.some.inj hs] at ha
    | wait b c =>
      rw [hpc] at hs
      cases hs
      cases hd : s.disk b with
      | false => exact hi.finish hpc hd _
      | true =>
        have hsame : s.resume t b c = s := if_pos hd
        rw [hsame]
        exact ⟨hi.quiet, hi.chains, hi.flow, hi.hist.quiet _, hi.lock⟩
  | intr => exact hi.intr hs _
  | consume => exact hi.consume hs _
  | complete h => exact hi.complete hs _

end

theorem init_inv (k k' : BitVec 16) : (init T B k k').Inv [] where
  quiet := rfl
  chains := ⟨nofun, nofun, fun _ => .inl rfl⟩
  flow := by
    have hp : (init T B k k').pending = [] := by
      unfold St.pending
      rw [contents_eq_nil rfl, contents_eq_nil rfl]
      rfl
    refine ⟨?_, fun h => ?_, ?_⟩
    · rw [hp]
      exact nodup_nil
    · rw [hp]
      exact ⟨nofun, nofun⟩
    · rw [contents_eq_nil rfl]
      exact nofun
  hist := by
    refine ⟨?_, ?_, ?_⟩
    · rw [contents_eq_nil rfl]
      rfl
    · rw [contents_eq_nil rfl]
      rfl
    · exact .refl _
  lock := fun _ _ h => h.elim

/-! ## Runs -/

section

variable [DecidableEq T] [DecidableEq B] {s : St T B} {tr : List (Ev T B × Moved)} {blockno : B → ℕ}
  {k k' : BitVec 16}

omit [DecidableEq T] [DecidableEq B] in
/-- A head that is nowhere has been handled as often as it has been submitted. -/
theorem St.Inv.count_handled (hi : s.Inv tr) {h : Ix} (hp : h ∉ s.pending) :
    (handled tr).count h = (submitted tr).count h := by
  have hp : ¬ ((h ∈ s.avail.contents ∨ h ∈ s.taken) ∨ h ∈ s.used.contents) := by
    intro h'
    exact hp (List.mem_append.mpr (h'.imp_left List.mem_append.mpr))
  push Not at hp
  have h1 := congrArg (List.count h) hi.hist.submits
  have h2 := congrArg (List.count h) hi.hist.returns
  have h3 := hi.hist.takes.count_eq h
  rw [count_append, List.count_eq_zero.mpr hp.1.1] at h1
  rw [count_append, List.count_eq_zero.mpr hp.2] at h2
  rw [count_append, List.count_eq_zero.mpr hp.1.2] at h3
  omega

/-- **Two requests.** At most two calls have descriptors, and `alloc3_desc` finds three if none
    has. -/
theorem two_requests (hrun : Run (St.Step blockno) (init T B k k') tr s) :
    (∀ S : Finset T, (∀ t ∈ S, ∃ b c, s.pc t = .wait b c) → S.card ≤ 2) ∧
    ((∀ t b c, s.pc t ≠ .wait b c) → s.alloc3Desc.1 ≠ none) := by
  have hi : s.Inv tr := hrun.inv (I := fun tr s => s.Inv tr) (init_inv k k') fun _ _ _ _ hi hs =>
    hi.step hs
  refine ⟨fun S hS => ?_, fun hout => ?_⟩
  · choose b c hc using hS
    -- the chains are disjoint sets of three of the eight descriptors
    have hle := (S.attach.biUnion fun t => (c t.1 t.2).ixs.toFinset).card_le_univ
    rw [Finset.card_biUnion fun t _ u _ htu => Finset.disjoint_left.mpr fun i ht hu => htu <|
      Subtype.ext <|
        hi.chains.apart _ _ _ _ _ _ (hc _ t.2) (hc _ u.2) i (mem_toFinset.mp ht)
          (mem_toFinset.mp hu),
      Finset.sum_congr rfl fun t _ =>
        toFinset_card_of_nodup (hi.chains.formatted _ _ _ (hc _ t.2)).nodup] at hle
    simp [Chain.ixs, num] at hle
    omega
  · have hfree : s.free = fun _ => true :=
      funext fun i => (hi.chains.cover i).resolve_right (by simp [hout])
    cases s
    cases hfree
    exact Option.some_ne_none (⟨0, 1, 2⟩ : Chain)

/-- Two requests; the device returns the second one first, and the counters wrap. -/
def twoRequests : List (Ev Bool Bool × Moved) :=
  [(.acquiresleep false false, {}), (.acquiresleep true true, {}),
    (.rw false false true, { submitted := [0] }), (.rw true true false, { submitted := [3] }),
    (.consume, { consumed := [0] }), (.consume, { consumed := [3] }),
    (.complete 3, { completed := [3] }), (.complete 0, { completed := [0] }), (.resume false, {}),
    (.intr, { handled := [3] })]

theorem twoRequests_run :
    ∃ s, Run (St.Step Bool.toNat) (init Bool Bool 0xffff 0xffff) twoRequests s ∧
    s.pc false = .wait false ⟨0, 1, 2⟩ ∧ s.pc true = .wait true ⟨3, 4, 5⟩ ∧
    s.disk false = true ∧ s.disk true = false ∧ s.alloc3Desc.1 = none :=
  ⟨_, .cons rfl
    (.cons rfl (.cons rfl (.cons rfl (.cons rfl (.cons rfl (.cons rfl (.cons rfl (.cons rfl
    (.cons rfl .nil))))))))), rfl, rfl, rfl, rfl, rfl⟩

/-- Both calls have descriptors, and there are no three left. -/
theorem two_requests_out :
    ∃ s, Run (St.Step Bool.toNat) (init Bool Bool 0xffff 0xffff) twoRequests s ∧
    (∀ t ∈ (Finset.univ : Finset Bool), ∃ b c, s.pc t = .wait b c) ∧
    (Finset.univ : Finset Bool).card ≤ 2 ∧ s.alloc3Desc.1 = none := by
  obtain ⟨s, hrun, h0, h1, -, -, hnone⟩ := twoRequests_run
  have hout : ∀ t ∈ (Finset.univ : Finset Bool), ∃ b c, s.pc t = .wait b c := by
    rintro (_ | _) _
    · exact ⟨_, _, h0⟩
    · exact ⟨_, _, h1⟩
  exact ⟨s, hrun, hout, (two_requests hrun).1 _ hout, hnone⟩

/-- **Requests and completions match**, in every run of calls of `virtio_disk_rw`, interrupts and
the device, with counters that wrap. A request that is in flight has a chain of three descriptors;
the chains are disjoint and hold no free descriptor, and every descriptor is free or in a chain. The
device finds the heads in the available ring in the order in which they were submitted. The head
that `virtio_disk_intr` handles next belongs to a request that the device has returned, and the flag
of its buffer, and no other, is cleared. The flag is set as long as the request is on its way, so
that a call that finds it cleared has had its request handled. There is no panic. -/
theorem disk_requests_match (hrun : Run (St.Step blockno) (init T B k k') tr s) :
    (∀ t b c, s.pc t = .wait b c → s.Linked c) ∧
    (∀ t u b d c e, s.pc t = .wait b c → s.pc u = .wait d e → ∀ i ∈ c.ixs, i ∈ e.ixs → t = u) ∧
    (∀ i, s.free i = true ∨ ∃ t b c, s.pc t = .wait b c ∧ i ∈ c.ixs) ∧
    (submitted tr = consumed tr ++ s.avail.contents ∧
      completed tr = handled tr ++ s.used.contents) ∧
    (s.used.nread ≠ s.used.nwrite → ∃ t b c s', s.pc t = .wait b c ∧ c.head = s.used.head ∧
      s.intr = some (s', { handled := [c.head] }) ∧ s'.disk = update s.disk b false) ∧
    (∀ t b c, s.pc t = .wait b c → (s.disk b = true ↔ c.head ∈ s.pending) ∧
      (s.disk b = false → (handled tr).count c.head = (submitted tr).count c.head)) ∧
    s.panicked = none := by
  have hi : s.Inv tr := hrun.inv (I := fun tr s => s.Inv tr) (init_inv k k') fun _ _ _ _ hi hs =>
    hi.step hs
  have hflag : ∀ t b c, s.pc t = .wait b c → (s.disk b = true ↔ c.head ∈ s.pending) := by
    intro t b c hpc
    constructor
    · exact fun hd => (hi.flow.heads _).mpr ⟨t, b, c, hpc, rfl, hd⟩
    · intro hp
      obtain ⟨u, d, e, hu, he, hd⟩ := (hi.flow.heads _).mp hp
      obtain rfl := hi.chains.apart u t d b e c hu hpc e.head e.head_mem (he ▸ c.head_mem)
      rw [hpc] at hu
      cases hu
      exact hd
  refine ⟨fun t b c hpc => (hi.chains.formatted t b c hpc).toLinked, hi.chains.apart,
    hi.chains.cover,
    ⟨hi.hist.submits, hi.hist.returns⟩, fun hne => ?_, fun t b c hpc =>
      ⟨hflag t b c hpc, fun hd => ?_⟩, hi.quiet⟩
  · have hlen : s.used.len ≠ 0 := fun h0 => hne (Ring.len_eq_zero.mp h0)
    have hmem : s.used.head ∈ s.used.contents := by
      rw [contents_pop hlen]
      exact mem_cons_self
    obtain ⟨t, b, c, hpc, hhead, -⟩ := (hi.flow.heads _).mp (mem_append_right _ hmem)
    have hbuf : (s.info s.used.head).b = some b := hhead ▸ (hi.chains.formatted t b c hpc).buf
    refine ⟨t, b, c, { s with disk := update s.disk b false, used := s.used.pop }, hpc, hhead, ?_,
      rfl⟩
    unfold St.intr
    rw [if_pos hne]
    rw [if_neg (not_not.mpr (hi.flow.status _ hmem)), hbuf, hhead]
  · refine hi.count_handled fun hp => ?_
    rw [(hflag t b c hpc).mpr hp] at hd
    cases hd

end

theorem disk_requests_match_two :
    ∃ s, Run (St.Step Bool.toNat) (init Bool Bool 0xffff 0xffff) twoRequests s ∧
      s.pc false = .wait false ⟨0, 1, 2⟩ ∧ s.pc true = .wait true ⟨3, 4, 5⟩ ∧
      s.disk false = true ∧ s.disk true = false ∧ (s.disk false = true ↔ 0 ∈ s.pending) := by
  obtain ⟨s, hrun, h0, h1, h2, h3, -⟩ := twoRequests_run
  exact ⟨s, hrun, h0, h1, h2, h3, ((disk_requests_match hrun).2.2.2.2.2.1 _ _ _ h0).1⟩

end Xv6.Virtio
