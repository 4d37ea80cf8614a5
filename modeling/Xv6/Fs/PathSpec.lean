/-
  Path names: what `namex` does.

  `walk` is the walk over the nodes that a path describes. When every directory entry names an
  inode with links, or the directory itself, then `namex` changes no node, and it ends at the
  inode where `walk` ends. In any state it takes one reference, or none if it fails.
-/
import Xv6.Fs.DirSpec

namespace Xv6.Fs

open Lib Act Function List

/-! ## Paths -/

variable {path : Path} {fuel : ℕ} {name : Name}

theorem dropWhile_head {p : UInt8 → Bool} {l : Path} {c : UInt8} (h : path.dropWhile p = c :: l) :
    p c = false := by
  have := head_dropWhile_not p (l := path) (by rw [h]; exact cons_ne_nil _ _)
  simpa only [h, head_cons] using this

theorem skipelem_length {rest : Path} (h : skipelem path = some (name, rest)) :
    rest.length < path.length := by
  unfold skipelem at h
  split at h
  · cases h
  · rename_i c l hdrop
    have h1 : (c :: l).length ≤ path.length := by
      rw [← hdrop]
      exact (dropWhile_suffix _).length_le
    have hc := dropWhile_head hdrop
    have hrest : rest = ((c :: l).dropWhile (· != slash)).dropWhile (· == slash) := by
      cases h
      rfl
    have h2 : (c :: l).dropWhile (· != slash) = l.dropWhile (· != slash) :=
      dropWhile_cons_of_pos (by rw [bne, hc]; rfl)
    have h3 := (dropWhile_suffix (· == slash) (l := l.dropWhile (· != slash))).length_le
    have h4 := (dropWhile_suffix (· != slash) (l := l)).length_le
    rw [length_cons] at h1
    rw [hrest, h2]
    omega

/-- The buffer of a path element holds the element. -/
theorem nameOf_byte (hlen : name.length ≤ dirSiz) (h0 : (0 : UInt8) ∉ name) :
    nameOf name.byte = name := by
  have hbuf : (List.range' 0 dirSiz).map name.byte = name ++ List.replicate (dirSiz - name.length)
      0 := by
    refine ext_getElem (by simp; omega) fun j h1 h2 => ?_
    rw [getElem_map, getElem_range', Nat.zero_add, Nat.one_mul]
    unfold Name.byte
    by_cases hj : j < name.length
    · rw [getElem_append_left hj, getD_eq_getElem?_getD, List.getElem?_eq_getElem hj]
      rfl
    · rw [getElem_append_right (Nat.le_of_not_lt hj), getElem_replicate,
        getD_eq_getElem?_getD, List.getElem?_eq_none (Nat.le_of_not_lt hj)]
      rfl
  unfold nameOf cstr
  rw [hbuf, takeWhile_append_of_pos fun x hx => by
    simp only [bne_iff_ne]
    rintro rfl
    exact h0 hx]
  cases dirSiz - name.length with
  | zero => exact append_nil _
  | succ n =>
    rw [replicate_succ, takeWhile_cons_of_neg (by simp)]
    exact append_nil _

/-! ## Components -/

/-- The parts of a path between slashes that are not empty, each as far as an entry keeps it. -/
def components (path : Path) : List Name :=
  ((path.splitOnP (· == slash)).filter (!·.isEmpty)).map (List.take dirSiz)

/-- The elements that `skipelem` returns, one call after the other. -/
def elements : ℕ → Path → List Name
  | 0, _ => []
  | fuel + 1, path =>
    match skipelem path with
    | none => []
    | some (name, rest) => name :: elements fuel rest

theorem components_slash (path : Path) : components (slash :: path) = components path := by
  rfl

theorem components_dropWhile (path : Path) :
    components (path.dropWhile (· == slash)) = components path := by
  induction path with
  | nil => rfl
  | cons c path ih =>
    by_cases hc : (c == slash) = true
    · rw [dropWhile_cons_of_pos (p := (· == slash)) hc, ih, eq_of_beq hc, components_slash]
    · rw [dropWhile_cons_of_neg (p := (· == slash)) hc]

/-- The first component of a path that does not start with a slash. -/
theorem components_append {w rest : Path} (h0 : w ≠ []) (hw : ∀ x ∈ w, (x == slash) = false)
    (hrest : rest = [] ∨ ∃ r, rest = slash :: r) :
    components (w ++ rest) = w.take dirSiz :: components rest := by
  have hkeep : ∀ l : List Path, (w :: l).filter (!·.isEmpty) = w :: l.filter (!·.isEmpty) :=
    fun _ =>
    filter_cons_of_pos (p := fun l : Path => !l.isEmpty) (by simpa using h0)
  rcases hrest with rfl | ⟨r, rfl⟩
  · rw [append_nil]
    unfold components
    rw [splitOnP_eq_singleton hw, hkeep]
    rfl
  · rw [components_slash]
    unfold components
    rw [splitOnP_append_cons_of_forall_mem hw slash (beq_self_eq_true slash), hkeep, map_cons]

theorem components_skipelem (path : Path) : components path = match skipelem path with
    | none => []
    | some (name, rest) => name :: components rest := by
  rw [← components_dropWhile path]
  unfold skipelem
  cases hdrop : path.dropWhile (· == slash) with
  | nil => rfl
  | cons c l =>
    have hc := dropWhile_head hdrop
    dsimp only
    rw [components_dropWhile]
    have hsplit := takeWhile_append_dropWhile (p := (· != slash)) (l := c :: l)
    have hfirst : (c :: l).takeWhile (· != slash) ≠ [] := by
      rw [takeWhile_cons_of_pos (by rw [bne, hc]; rfl)]
      exact cons_ne_nil _ _
    have hclean : ∀ x ∈ (c :: l).takeWhile (· != slash), (x == slash) = false := fun x hx => by
      simpa using mem_takeWhile_imp hx
    have hslash : (c :: l).dropWhile (· != slash) = [] ∨
        ∃ r, (c :: l).dropWhile (· != slash) = slash :: r := by
      cases hr : (c :: l).dropWhile (· != slash) with
      | nil => exact .inl rfl
      | cons x r => exact .inr ⟨r, by rw [show x = slash by simpa using dropWhile_head hr]⟩
    conv_lhs => rw [← hsplit]
    exact components_append hfirst hclean hslash

/-- **`skipelem` enumerates the components.** -/
theorem elements_eq (h : path.length < fuel) :
    elements fuel path = components path := by
  induction fuel generalizing path with
  | zero => exact absurd h (Nat.not_lt_zero _)
  | succ fuel ih =>
    unfold elements
    rw [components_skipelem]
    cases hs : skipelem path with
    | none => rfl
    | some e =>
      have := skipelem_length hs
      dsimp only
      rw [ih (by omega)]

/-- Nothing is behind the last component. -/
theorem rest_eq_nil {rest : Path} (h : skipelem path = some (name, rest)) :
    rest = [] ↔ components rest = [] := by
  refine ⟨fun hr => by rw [hr]; rfl, fun hc => ?_⟩
  unfold skipelem at h
  split at h
  · cases h
  · rename_i c l _
    have hidem : rest.dropWhile (· == slash) = rest := by
      cases h
      exact dropWhile_idempotent _ _
    rw [components_skipelem] at hc
    unfold skipelem at hc
    rw [hidem] at hc
    cases rest with
    | nil => rfl
    | cons x r => cases hc

/-- The walk along a path, from inode `i`: the inode where it ends, or the directory of the last
element and its name if `parent` is set. -/
def walk (N : ℕ → Option Node) (parent : Bool) : ℕ → ℕ → Path → Option (ℕ × Name)
  | 0, _, _ => none
  | fuel + 1, i, path =>
    match skipelem path with
    | none => if parent then none else some (i, [])
    | some (name, rest) =>
      match N i with
      | none => none
      | some n =>
        if n.type ≠ .dir then none
        else if parent ∧ rest = [] then some (i, name)
        else
          match n.lookup name with
          | none => none
          | some k => walk N parent fuel (n.entry k).inum rest

/-- The walk of `namex` in the directory `cwd`. -/
def resolve (N : ℕ → Option Node) (cwd : ℕ) (path : Path) (parent : Bool) : Option (ℕ × Name) :=
  walk N parent (path.length + 1) (if path.head? = some slash then rootIno else cwd) path

/-! ## Following names -/

/-- The names lead from `i` to `j`. -/
def Follows (N : ℕ → Option Node) : ℕ → List Name → ℕ → Prop
  | i, [], j => i = j
  | i, name :: names, j => ∃ n k, N i = some n ∧ n.type = .dir ∧ n.lookup name = some k ∧
      Follows N (n.entry k).inum names j

/-- Some step is missing, or one before the last does not lead to a directory. -/
def Breaks (N : ℕ → Option Node) (i : ℕ) (names : List Name) : Prop :=
  ∃ front name back j, names = front ++ name :: back ∧ Follows N i front j ∧
    ∀ n, N j = some n → n.type = .dir → n.lookup name = none

section

variable {N : ℕ → Option Node} {i j : ℕ} {names : List Name} {name : Name} {n : Node} {k : ℕ}

/-- The first step can be made. -/
theorem follows_cons (hi : N i = some n) (ht : n.type = .dir) (hl : n.lookup name = some k) :
    Follows N i (name :: names) j ↔ Follows N (n.entry k).inum names j := by
  refine ⟨?_, fun h => ⟨n, k, hi, ht, hl, h⟩⟩
  rintro ⟨n', k', h1, _, h3, h4⟩
  rw [hi] at h1
  cases h1
  rw [hl] at h3
  cases h3
  exact h4

theorem breaks_cons (hi : N i = some n) (ht : n.type = .dir) (hl : n.lookup name = some k) :
    Breaks N i (name :: names) ↔ Breaks N (n.entry k).inum names := by
  constructor
  · rintro ⟨front, x, back, j, heq, hf, hno⟩
    cases front with
    | nil =>
      obtain rfl : i = j := hf
      have hnone := hno n hi ht
      rw [← (List.cons.inj heq).1, hl] at hnone
      cases hnone
    | cons y front =>
      obtain ⟨rfl, rfl⟩ := List.cons.inj heq
      exact ⟨front, x, back, j, rfl, (follows_cons hi ht hl).mp hf, hno⟩
  · rintro ⟨front, x, back, j, rfl, hf, hno⟩
    exact ⟨name :: front, x, back, j, rfl, (follows_cons hi ht hl).mpr hf, hno⟩

/-- It cannot. -/
theorem stuck (h : ∀ n, N i = some n → n.type = .dir → n.lookup name = none) :
    Breaks N i (name :: names) ∧ ∀ j, ¬Follows N i (name :: names) j := by
  refine ⟨⟨[], name, names, i, rfl, rfl, h⟩, ?_⟩
  rintro j ⟨n, k, hn, ht, hl, _⟩
  rw [h n hn ht] at hl
  cases hl

/-- The walk of `namei`. -/
theorem walk_namei (h : path.length < fuel) :
    (walk N false fuel i path = none ↔ Breaks N i (components path)) ∧
      ∀ j nm, walk N false fuel i path = some (j, nm) ↔ nm = [] ∧
      Follows N i (components path) j := by
  induction fuel generalizing i path with
  | zero => exact absurd h (Nat.not_lt_zero _)
  | succ fuel ih =>
    unfold walk
    rw [components_skipelem]
    cases hs : skipelem path with
    | none =>
      refine ⟨⟨nofun, ?_⟩, fun j nm => ⟨fun hw => ?_, ?_⟩⟩
      · rintro ⟨front, _, _, _, heq, _⟩
        exact absurd heq.symm (by simp)
      · cases hw
        exact ⟨rfl, rfl⟩
      · rintro ⟨rfl, rfl⟩
        rfl
    | some e =>
      obtain ⟨name, rest⟩ := e
      have hlen := skipelem_length hs
      have hstuck : (∀ n, N i = some n → n.type = .dir → n.lookup name = none) →
          ((none : Option (ℕ × Name)) = none ↔ Breaks N i (name :: components rest)) ∧
          ∀ j (nm : Name),
            none = some (j, nm) ↔ nm = [] ∧ Follows N i (name :: components rest) j := fun hst =>
        ⟨⟨fun _ => (stuck hst).1, fun _ => rfl⟩, fun j nm =>
          ⟨nofun, fun hf => absurd hf.2 ((stuck hst).2 j)⟩⟩
      cases hn : N i with
      | none => exact hstuck fun n hn' => by rw [hn] at hn'; cases hn'
      | some n =>
        have hone : ∀ {P : Node → Prop}, P n → ∀ n', N i = some n' → P n' := fun hP n' hn' =>
          Option.some.inj (hn.symm.trans hn') ▸ hP
        dsimp only
        by_cases ht : n.type = .dir
        · rw [if_neg (not_not.mpr ht), if_neg fun hc => Bool.false_ne_true hc.1]
          cases hl : n.lookup name with
          | none => exact hstuck (hone fun _ => hl)
          | some k =>
            have hlt : rest.length < fuel := by omega
            obtain ⟨h1, h2⟩ := ih (i := (n.entry k).inum) hlt
            refine ⟨h1.trans (breaks_cons hn ht hl).symm, fun j nm => ?_⟩
            exact (h2 j nm).trans (and_congr_right fun _ => (follows_cons hn ht hl).symm)
        · rw [if_pos ht]
          exact hstuck (hone fun ht' => absurd ht' ht)

/-- The walk of `nameiparent`. -/
theorem walk_nameiparent (h : path.length < fuel) (d : ℕ) :
    walk N true fuel i path = some (d, name) ↔ ∃ front, components path = front ++ [name] ∧
      Follows N i front d ∧ ∃ n, N d = some n ∧ n.type = .dir := by
  induction fuel generalizing i path with
  | zero => exact absurd h (Nat.not_lt_zero _)
  | succ fuel ih =>
    unfold walk
    rw [components_skipelem]
    cases hs : skipelem path with
    | none => exact ⟨nofun, fun ⟨front, heq, _⟩ => absurd heq.symm (by simp)⟩
    | some e =>
      obtain ⟨x, rest⟩ := e
      have hlen := skipelem_length hs
      have hr := rest_eq_nil hs
      dsimp only
      -- the first step is the last one, or others follow
      have hsplit : ∀ {front}, x :: components rest = front ++ [name] → Follows N i front d →
          rest = [] ∧ x = name ∧ i = d ∨ rest ≠ [] ∧ ∃ front', components rest = front' ++ [name] ∧
            Follows N i (x :: front') d := by
        intro front heq hf
        rcases List.cons_eq_append_iff.mp heq with ⟨rfl, hx⟩ | ⟨front', rfl, hc⟩
        · obtain ⟨h1, h2⟩ := List.cons.inj hx
          exact .inl ⟨hr.mpr h2.symm, h1.symm, hf⟩
        · refine .inr ⟨fun h0 => ?_, front', hc, hf⟩
          rw [hr.mp h0] at hc
          exact absurd hc.symm (by simp)
      cases hn : N i with
      | none =>
        refine ⟨nofun, fun ⟨front, heq, hf, n, hd, _⟩ => ?_⟩
        rcases hsplit heq hf with ⟨_, _, rfl⟩ | ⟨_, front', _, n', _, hn', _⟩
        · rw [hn] at hd
          cases hd
        · rw [hn] at hn'
          cases hn'
      | some n =>
        dsimp only
        by_cases ht : n.type = .dir
        · rw [if_neg (not_not.mpr ht)]
          by_cases hlast : rest = []
          · rw [if_pos ⟨rfl, hlast⟩]
            constructor
            · intro hw
              cases hw
              exact ⟨[], by rw [hr.mp hlast]; rfl, rfl, n, hn, ht⟩
            · rintro ⟨front, heq, hf, _⟩
              rcases hsplit heq hf with ⟨_, rfl, rfl⟩ | ⟨h0, _⟩
              · rfl
              · exact absurd hlast h0
          · rw [if_neg fun hc => hlast hc.2]
            cases hl : n.lookup x with
            | none =>
              refine ⟨nofun, fun ⟨front, heq, hf, _⟩ => ?_⟩
              rcases hsplit heq hf with ⟨h0, _⟩ | ⟨_, front', _, hf'⟩
              · exact absurd h0 hlast
              · refine absurd hf' ((stuck fun n' hn' _ => ?_).2 d)
                rw [hn] at hn'
                cases hn'
                exact hl
            | some k =>
              rw [ih (by omega)]
              constructor
              · rintro ⟨front, hc, hf, hd⟩
                exact ⟨x :: front, by rw [hc]; rfl, (follows_cons hn ht hl).mpr hf, hd⟩
              · rintro ⟨front, heq, hf, hd⟩
                rcases hsplit heq hf with ⟨h0, _⟩ | ⟨_, front', hc, hf'⟩
                · exact absurd h0 hlast
                · exact ⟨front', hc, (follows_cons hn ht hl).mp hf', hd⟩
        · rw [if_pos ht]
          refine ⟨nofun, fun ⟨front, heq, hf, n', hd, ht'⟩ => ?_⟩
          rcases hsplit heq hf with ⟨_, _, rfl⟩ | ⟨_, front', _, n2, _, hn2, ht2, _⟩
          · rw [hn] at hd
            cases hd
            exact absurd ht' ht
          · rw [hn] at hn2
            cases hn2
            exact absurd ht2 ht

end

/-! ## References that are not the last one -/

/-- Inode `i` is not freed by giving up a reference that is not in `L`. -/
def Safe (L : Multiset Ref) (N : ℕ → Option Node) (i : ℕ) : Prop :=
  ∃ n, N i = some n ∧ (n.nlink ≠ 0 ∨ ∃ r ∈ L, r.inum = i)

theorem Safe.cons {L : Multiset Ref} {N : ℕ → Option Node} {i : ℕ} (h : Safe L N i) (r : Ref) :
    Safe (r ::ₘ L) N i := by
  obtain ⟨n, hn, h⟩ := h
  refine ⟨n, hn, h.imp_right ?_⟩
  rintro ⟨r', hr', hi⟩
  exact ⟨r', Multiset.mem_cons_of_mem hr', hi⟩

/-- Every entry names an inode with links, or its own directory. -/
def Closed (N : ℕ → Option Node) : Prop :=
  ∀ d n k, N d = some n → n.type = .dir → n.Used k →
    (n.entry k).inum = d ∨ ∃ m, N (n.entry k).inum = some m ∧ m.nlink ≠ 0

theorem Closed.safe {L : Multiset Ref} {N : ℕ → Option Node} (h : Closed N) {d k : ℕ} {n : Node}
    (hd : N d = some n) (ht : n.type = .dir) (hk : n.Used k) (hs : Safe L N d) :
    Safe L N (n.entry k).inum := by
  rcases h d n k hd ht hk with he | ⟨m, hm, hl⟩
  · rw [he]
    exact hs
  · exact ⟨m, hm, .inl hl⟩

variable {sb : Super} {s : Store} {ip : Ptr} {i : ℕ} {b : Bool} {L : Multiset Ref} {E : Stop → Prop}

theorem iput_safe (h : Holds sb (⟨ip, i, b⟩ ::ₘ L) s) (hblk : s.locks ip = true → E .blocked)
    {Q : Unit → Store → Prop}
    (hQ : ∀ s', Holds sb L s' → (Safe L s.node i → s'.node = s.node) → s'.locks = s.locks →
      Q () s') :
    wp (iput ip) Q E s := by
  refine iput_spec h (fun hk _ => hblk hk) (fun s' h' hn hk _ => hQ s' h' (fun _ => hn) hk)
    fun s' n h' hn h0 hL _ hk =>
    hQ s' h' (fun hs => ?_) hk
  obtain ⟨n', hn', hl | ⟨r, hr, hi⟩⟩ := hs
  · rw [hn] at hn'
    cases hn'
    exact absurd h0 hl
  · exact absurd (h.ptr_eq (Multiset.mem_cons_of_mem hr)
      (Multiset.mem_cons_self (⟨ip, i, b⟩ : Ref) _) hi) (hL r hr)

theorem iunlockput_safe (h : Holds sb (⟨ip, i, b⟩ ::ₘ L) s) (hE : s.locks ip = false → E .iunlock)
    {Q : Unit → Store → Prop} (hQ : ∀ s', Holds sb L s' → (Safe L s.node i → s'.node = s.node) →
      s'.locks = update s.locks ip false → Q () s') : wp (iunlockput ip) Q E s := by
  refine wp_seq (iunlock_spec h hE fun s1 h1 hn1 hk1 => iput_safe h1 (fun hb => ?_)
    fun s' h' hn hk => hQ s' h' (fun hs => ?_) (hk.trans hk1))
  · rw [hk1, update_self] at hb
    cases hb
  · rw [← hn1] at hs ⊢
    exact hn hs

/-! ## namex -/

/-- The stops that say nothing about names. -/
structure Lenient (E : Stop → Prop) : Prop where
  blocked : E .blocked
  noInodes : E .noInodes
  iunlock : E .iunlock
  notDir : E .notDir
  dirlookupRead : E .dirlookupRead
  dirlinkRead : E .dirlinkRead
  isdiremptyReadi : E .isdiremptyReadi
  unlinkWritei : E .unlinkWritei

/-- No sleep-lock is held, and directories consist of whole entries. -/
structure Calm (s : Store) : Prop where
  unlocked : ∀ e, s.locks e = false
  whole : ∀ {d n}, s.node d = some n → n.type = .dir → n.size % direntSize = 0

/-- At most one entry of the inode table is without a reference of `L`. -/
def Crowded (L : Multiset Ref) : Prop := nInode ≤ (L.map Ref.ptr).toFinset.card + 1

theorem crowded_of_full {r : Ref} (h : ∀ e, ∃ r' ∈ r ::ₘ L, r'.ptr = e) : Crowded L := by
  have hsub : Finset.univ ⊆ insert r.ptr (L.map Ref.ptr).toFinset := by
    intro e _
    obtain ⟨r', hr', rfl⟩ := h e
    rcases Multiset.mem_cons.mp hr' with rfl | hr'
    · exact Finset.mem_insert_self _ _
    · exact Finset.mem_insert_of_mem (Multiset.mem_toFinset.mpr (Multiset.mem_map_of_mem _ hr'))
  have hcard := (Finset.card_le_card hsub).trans (Finset.card_insert_le _ _)
  rwa [Finset.card_univ, Fintype.card_fin] at hcard

theorem namexLoop_spec {parent : Bool} (h : Holds sb (⟨ip, i, b⟩ ::ₘ L) s)
    (hE : ¬(Calm s ∧ Closed s.node ∧ Safe L s.node i) → Lenient E) (hfull : Crowded L → E .noInodes)
    (hfuel : path.length < fuel)
    (hno : ¬(Closed s.node ∧ Safe L s.node i) → E .noType) {Q : Option (Ptr × Name) → Store → Prop}
    (hnone : ∀ s', Holds sb L s' → (Closed s.node ∧ Safe L s.node i →
        s'.node = s.node ∧ walk s.node parent fuel i path = none) → Q none s')
    (hsome : ∀ ip' i' b' name s', Holds sb (⟨ip', i', b'⟩ ::ₘ L) s' →
      (Closed s.node ∧ Safe L s.node i → s'.node = s.node ∧
        walk s.node parent fuel i path = some (i', name) ∧ Safe L s.node i') →
          Q (some (ip', name)) s') :
    wp (namexLoop sb parent fuel ip path) Q E s := by
  induction fuel generalizing s ip i b path with
  | zero => exact absurd hfuel (Nat.not_lt_zero _)
  | succ fuel ih =>
    unfold namexLoop
    unfold walk at hnone hsome
    have hblk : s.locks ip = true → E .blocked := fun hl =>
      (hE fun hc => by rw [hc.1.unlocked] at hl; cases hl).blocked
    cases hsk : skipelem path with
    | none =>
      dsimp only
      rw [hsk] at hnone hsome
      cases parent with
      | true =>
        rw [if_pos rfl]
        refine wp_seq (iput_safe h hblk fun s' h' hn _ => wp_pure.mpr (hnone s' h' fun hP => ?_))
        exact ⟨hn hP.2, rfl⟩
      | false =>
        rw [if_neg Bool.false_ne_true]
        exact wp_pure.mpr (hsome ip i b [] s h fun hP => ⟨rfl, rfl, hP.2⟩)
    | some e =>
      obtain ⟨name, rest⟩ := e
      dsimp only
      rw [hsk] at hnone hsome
      refine wp_seq (ilock_spec h hblk (fun h0 => hno ?_) fun s1 h1 hn1 hk1 => ?_)
      · rintro ⟨_, n, hn, _⟩
        rw [h0] at hn
        cases hn
      have hun : s1.locks ip = false → E .iunlock := fun hl => by
        rw [hk1, update_self] at hl
        cases hl
      refine wp_read ?_
      obtain ⟨n, hn⟩ := Option.ne_none_iff_exists'.mp
        (h1.node_loaded (Multiset.mem_cons_self ⟨ip, i, true⟩ L) rfl)
      dsimp only at hn
      have ho := h1.open (Multiset.mem_cons_self ⟨ip, i, true⟩ L) rfl hn
      have hn' : s.node i = some n := by rw [← hn1, hn]
      rw [ho.type_eq]
      rw [hn'] at hnone hsome
      dsimp only at hnone hsome
      by_cases ht : n.type = .dir
      · rw [if_neg (not_not.mpr ht)]
        rw [if_neg (not_not.mpr ht)] at hnone hsome
        split
        · next hlast =>
          rw [if_pos hlast] at hsome
          refine wp_seq (iunlock_spec h1 hun fun s' h' hns _ => wp_pure.mpr ?_)
          exact hsome ip i true name s' h' fun hP => ⟨hns.trans hn1, rfl, hP.2⟩
        · next hlast =>
          rw [if_neg hlast] at hnone hsome
          refine wp_seq (dirlookup_spec h1 ho (fun h' => absurd ht h')
            (fun h' => (hE fun hc => h' (hc.1.whole hn' ht)).dirlookupRead)
            (fun h' => hfull (crowded_of_full h')) (fun hl => ?_) fun k next s2 hl h2 hn2 hk2 => ?_)
          · rw [hl] at hnone
            refine wp_seq (iunlockput_safe h1 hun fun s' h' hns _ =>
              wp_pure.mpr (hnone s' h' fun hP => ⟨?_, rfl⟩))
            rw [hns (hn1 ▸ hP.2), hn1]
          · rw [hl] at hnone hsome
            have hk := (Node.lookup_some hl).1
            refine wp_seq
              (iunlockput_safe (Multiset.cons_swap _ _ L ▸ h2) (fun h' => hun (hk2 ▸ h'))
              fun s3 h3 hn3 hk3 => ?_)
            -- the directory stays, and the next inode is safe too
            have hstep : Closed s.node ∧ Safe L s.node i →
                s3.node = s.node ∧ Safe L s.node (n.entry k).inum := by
              intro hP
              have e : s2.node = s.node := hn2.trans hn1
              refine ⟨?_, hP.1.safe hn' ht hk hP.2⟩
              rw [hn3 (e ▸ hP.2.cons _), e]
            have hcalm : Calm s → s3.node = s.node → Calm s3 := by
              intro hc hn
              refine ⟨fun e => ?_, fun hd => hc.whole (hn ▸ hd)⟩
              rw [hk3, hk2, hk1, update_idem]
              by_cases he : e = ip
              · rw [he, update_self]
              · rw [update_of_ne he]
                exact hc.unlocked e
            refine ih h3 (fun hE' => hE fun hc => hE' ?_) (by have := skipelem_length hsk; omega)
              (fun hno' => hno fun hP => hno' ?_) (fun s' h' hend => hnone s' h' fun hP => ?_)
              fun ip' i' b' name' s' h' hend => hsome ip' i' b' name' s' h' fun hP => ?_
            · obtain ⟨hn3, hs⟩ := hstep hc.2
              rw [hn3]
              exact ⟨hcalm hc.1 hn3, hc.2.1, hs⟩
            · rw [(hstep hP).1]
              exact ⟨hP.1, (hstep hP).2⟩
            · rw [(hstep hP).1] at hend
              exact hend ⟨hP.1, (hstep hP).2⟩
            · rw [(hstep hP).1] at hend
              exact hend ⟨hP.1, (hstep hP).2⟩
      · rw [if_pos ht]
        rw [if_pos ht] at hnone
        refine wp_seq (iunlockput_safe h1 hun fun s' h' hns _ =>
          wp_pure.mpr (hnone s' h' fun hP => ⟨?_, rfl⟩))
        rw [hns (hn1 ▸ hP.2), hn1]

/-- What is known about the inode where a path starts. -/
def Start (L : Multiset Ref) (N : ℕ → Option Node) : Prop :=
  Closed N ∧ Safe L N rootIno ∧ ∀ r ∈ L, N r.inum ≠ none

/-- `namex`, with the working directory `r`. -/
theorem namex_spec {r : Ref} {parent : Bool} (hE : ¬(Calm s ∧ Start L s.node) → Lenient E)
    (hfull : Crowded L → E .noInodes) (h : Holds sb L s)
    (hr : r ∈ L) (hno : ¬Start L s.node → E .noType) {Q : Option (Ptr × Name) → Store → Prop}
    (hnone : ∀ s', Holds sb L s' →
      (Start L s.node → s'.node = s.node ∧ resolve s.node r.inum path parent = none) → Q none s')
    (hsome : ∀ ip i b name s', Holds sb (⟨ip, i, b⟩ ::ₘ L) s' → (Start L s.node → s'.node = s.node ∧
        resolve s.node r.inum path parent = some (i, name) ∧ Safe L s.node i) →
          Q (some (ip, name)) s') :
    wp (namex sb r.ptr path parent) Q E s := by
  unfold namex
  unfold resolve at hnone hsome
  have hcalm : ∀ {s1 : Store}, s1.node = s.node → s1.locks = s.locks → Calm s → Calm s1 :=
    fun hn hk hc => ⟨fun e => hk ▸ hc.unlocked e, fun hd => hc.whole (hn ▸ hd)⟩
  split
  · next hroot =>
    rw [if_pos hroot] at hnone hsome
    refine wp_seq (iget_spec h (fun hf => hfull (crowded_of_full (r := r) fun e =>
      (hf e).imp fun _ h' => ⟨Multiset.mem_cons_of_mem h'.1, h'.2⟩)) fun ip s1 h1 hn1 hk1 => ?_)
    have hc := hcalm hn1 hk1
    rw [← hn1] at hE hno hnone hsome
    have hS : Start L s1.node → Closed s1.node ∧ Safe L s1.node rootIno := fun hS => ⟨hS.1, hS.2.1⟩
    exact namexLoop_spec h1 (fun h' => hE fun hS' => h' ⟨hc hS'.1, hS hS'.2⟩) hfull
      (Nat.lt_succ_self _)
      (fun h' => hno fun hS' => h' (hS hS'))
        (fun s' h' hend => hnone s' h' fun hS' => hend (hS hS'))
      fun ip i b name s' h' hend => hsome ip i b name s' h' fun hS' => hend (hS hS')
  · next hroot =>
    rw [if_neg hroot] at hnone hsome
    refine wp_seq (idup_spec h hr fun s1 h1 hn1 hk1 => ?_)
    have hc := hcalm hn1 hk1
    rw [← hn1] at hE hno hnone hsome
    have hS : Start L s1.node → Closed s1.node ∧ Safe L s1.node r.inum := by
      intro hS
      obtain ⟨n, hn⟩ := Option.ne_none_iff_exists'.mp (hS.2.2 r hr)
      exact ⟨hS.1, n, hn, .inr ⟨r, hr, rfl⟩⟩
    exact namexLoop_spec (i := r.inum) (b := r.loaded) h1
      (fun h' => hE fun hS' => h' ⟨hc hS'.1, hS hS'.2⟩)
      hfull (Nat.lt_succ_self _)
      (fun h' => hno fun hS' => h' (hS hS'))
        (fun s' h' hend => hnone s' h' fun hS' => hend (hS hS'))
      fun ip i b name s' h' hend => hsome ip i b name s' h' fun hS' => hend (hS hS')

end Xv6.Fs
