import Fnod.Stake.TreapNodes

/-!
# The nodes make up the trees

The programs of `TreapNodes` do to the nodes in memory what the functions of `Treap` do to trees.
The invariant of each loop is that the nodes on the stack are a path, that they are all new, and
that the tree at the end of the path is the one that the function works on.
-/

namespace Fnod

open List NodeMem Option OrdMap StaticStack Treap Treap.Tree

namespace NodeTreap

/-- A node shows the entry, the priority and the size, which is cut to 32 bits. -/
def layout : Layout TreapNode Hash TicketValue where
  key := TreapNode.key
  Shows d v p s := d.value = v ∧ d.priority = p ∧ d.size = UInt32.ofNat s

@[simp] theorem layout_key (d : TreapNode) : layout.key d = d.key := rfl

variable {m₀ : Nodes} {fs : List (Frame Hash TicketValue)} {root : Ptr} {n : Node TreapNode}

section Replace

variable {m : Nodes} {as : List Nat} {parents : ParentStack}

/-- **A node takes the place of another one** at the end of a path of new nodes. -/
theorem replaceChild_spec {old : Nat} (hm : m₀.Keeps m) (hfresh : ∀ a ∈ as, m₀.cells a = none)
    (hpath : Path layout m (some old) fs as root) (hnodup : (pathKeys fs).Nodup)
    (hn : m.cells old = some n) (hkey : n.data.key ∉ pathKeys fs) {newRoot : Ptr}
    (hroot : newRoot = root ∨ as = []) (new : Nat) :
    ∃ m' root', replaceChild m as[0]? old new newRoot = (m', root') ∧ m₀.Keeps m' ∧
      (∀ a, a ∉ as → m'.cells a = m.cells a) ∧ Path layout m' (some new) fs as root' ∧
      ∀ ptr t, Rep layout m ptr t → (∀ k ∈ keys t, k ∉ pathKeys fs) → Rep layout m' ptr t := by
  match as with
  | [] =>
    cases hpath
    exact ⟨_, _, rfl, hm, fun _ _ => rfl, .nil _, fun _ _ ht _ => ht⟩
  | p :: as =>
    obtain ⟨pn, hpn, hpk⟩ := hpath.cell_of_mem mem_cons_self
    obtain rfl := hroot.resolve_right (by simp)
    refine ⟨_, _, rfl, ?_, fun a ha => ?_, hpath.relink hnodup hn hkey, fun ptr t ht hdisj => ?_⟩
    · exact hm.modify (hfresh p mem_cons_self) _
    · exact Mem.cells_modify_of_ne fun he => ha (he ▸ mem_cons_self)
    · exact ht.modify hpn fun hk => hdisj _ hk hpk

/-- **A node is copied** and the copy takes its place at the end of the path. -/
theorem linkCopy_spec {a : Nat} (hm : m₀.Keeps m) (hfresh : ∀ a ∈ as, m₀.cells a = none)
    (hs : parents.Holds as) (hpath : Path layout m (some a) fs as root)
    (hnodup : (pathKeys fs).Nodup) (hn : m.cells a = some n) (hkey : n.data.key ∉ pathKeys fs)
    (n' : Node TreapNode) :
    ∃ m' root', linkCopy (m.alloc n').1 parents a m.next = m' ∧ m₀.Keeps m' ∧
      (∀ b ∈ m.next :: as, m₀.cells b = none) ∧ m'.cells m.next = some n' ∧
      Path layout m' (some m.next) fs as root' ∧
      ∀ ptr t, Rep layout m ptr t → (∀ k ∈ keys t, k ∉ pathKeys fs) → Rep layout m' ptr t := by
  have halloc := Mem.keeps_alloc m n'
  obtain ⟨m', root', hreplace, hm', hothers, hpath', hrep⟩ := replaceChild_spec (hm.trans halloc)
    hfresh (hpath.mono halloc) hnodup (halloc a n hn) hkey (.inl rfl) m.next
  have hnext := hpath.next_not_mem
  refine ⟨m', root', ?_, hm', ?_, ?_, hpath', fun ptr t ht => hrep ptr t (ht.mono halloc)⟩
  · have hitem := hs.item 0
    unfold linkCopy
    unfold replaceChild at hreplace
    rw [show parents.item 0 = as[0]? from hitem]
    cases hparent : as[0]? with
    | none => exact (Prod.mk.inj (hparent ▸ hreplace)).1
    | some parent => exact (Prod.mk.inj (hparent ▸ hreplace)).1
  · exact forall_mem_cons.2 ⟨hm.cells_next, hfresh⟩
  · rw [hothers _ hnext, Mem.cells_alloc_self]

end Replace

/-! ## The walk of `Put` -/

/-- Whether the place at the end of a path is a left child. -/
def holeLeft : List (Frame Hash TicketValue) → Bool
  | .left .. :: _ => true
  | _ => false

theorem holeLeft_mapSize (g : Nat → Nat) (fs : List (Frame Hash TicketValue)) :
    holeLeft (fs.map (Frame.mapSize g)) = holeLeft fs := by
  cases fs with
  | nil => rfl
  | cons f fs => cases f <;> rfl

section PutWalk

/-- What the walk of `Put` leaves, when the walk in the tree ends so. -/
def PutWalked (m₀ : Nodes) (value : TicketValue) :
    List (Frame Hash TicketValue) × Tree Hash TicketValue → PutWalk → Prop
  | (fs, .node l k _ p s r), .found m newRoot =>
    m₀.Keeps m ∧ Rep layout m newRoot (plugAll (.node l k value p s r) fs)
  | (fs, .nil), .missing m parents less =>
    ∃ as root, m₀.Keeps m ∧ (∀ a ∈ as, m₀.cells a = none) ∧ parents.Holds as ∧
      Path layout m none fs as root ∧ less = holeLeft fs
  | _, _ => False

/-- **The walk of `Put`.** -/
theorem putWalk_spec (key : Hash) (value : TicketValue) {t : Tree Hash TicketValue} {fuel : Nat}
    {ptr : Ptr} (hm : m₀.Keeps m) (hfresh : ∀ a ∈ as, m₀.cells a = none) (hs : parents.Holds as)
    (hpath : Path layout m ptr fs as root) (ht : Rep layout m ptr t)
    (hnodup : (keys t ++ pathKeys fs).Nodup) (hfuel : t.toList.length ≤ fuel) :
    ∃ res, putWalk key value fuel m ptr parents (holeLeft fs) = some res ∧
      PutWalked m₀ value (descend key t fs) res := by
  induction t generalizing fuel m ptr fs as root parents with
  | nil =>
    cases ht
    refine ⟨.missing m parents (holeLeft fs), ?_, as, root, hm, hfresh, hs, hpath, rfl⟩
    cases fuel <;> rfl
  | node l k v p s r ihl ihr =>
    obtain ⟨a, n, rfl, hn, hk, hshow, hl, hr⟩ := ht.of_node
    change n.data.key = k at hk
    subst hk
    obtain ⟨hkeys, hpathKeys, hdisj⟩ := nodup_append.1 hnodup
    obtain ⟨fuel, rfl, hfl, hfr⟩ := exists_fuel hfuel
    have hkey : n.data.key ∉ pathKeys fs := fun hc => hdisj _ (by simp) _ hc rfl
    obtain ⟨m', root', hlink, hm', hfresh', hcell, hpath', hrep⟩ :=
      linkCopy_spec hm hfresh hs hpath hpathKeys hn hkey n
    have hl' := hrep _ l hl fun k hk hc => hdisj k (by simp [hk]) _ hc rfl
    have hr' := hrep _ r hr fun k hk hc => hdisj k (by simp [hk]) _ hc rfl
    have hs' := hs.push m.next
    rw [descend, putWalk, hn]
    simp only [bind_eq_bind, bind_some, Mem.alloc_snd, hlink]
    split_ifs with hlt hgt
    · exact ihl hm' hfresh' hs' (.left hcell rfl hshow rfl hr' hpath') hl'
        ((nodup_step true).1 hnodup) hfl
    · exact ihr hm' hfresh' hs' (.right hcell rfl hshow rfl hl' hpath') hr'
        ((nodup_step false).1 hnodup) hfr
    · rw [hs'.bottom]
      obtain ⟨hkl, hkr⟩ := not_mem_of_nodup hkeys
      have hnew : Rep layout (m'.modify m.next fun n => { n with data.value := value })
          (some m.next) (.node l n.data.key value p s r) :=
        .node (n := { n with data.value := value })
          (by rw [Mem.cells_modify_self, hcell, map_some]) rfl ⟨rfl, hshow.2⟩
          (hl'.modify hcell hkl) (hr'.modify hcell hkr)
      have hroot : root' = (m.next :: as).getLast? := by
        rw [hpath'.root_eq, List.getLast?_cons]
        cases as.getLast? <;> rfl
      exact ⟨_, rfl, hm'.modify (hfresh' _ mem_cons_self) _,
        hroot ▸ (hpath'.modify hcell hkey).rep hnew⟩

end PutWalk

/-! ## Sizes -/

variable {m : Nodes} {as : List Nat} {parents : ParentStack}

theorem childSize_spec {ptr : Ptr} {t : Tree Hash TicketValue}
    (h : Rep layout m ptr t) : childSize m ptr = some (UInt32.ofNat t.size) := by
  cases h with
  | nil => rfl
  | node cell key shows' left right => rw [childSize, cell, map_some, shows'.2.2]; rfl

theorem ofNat_grow (s r : Nat) :
    UInt32.ofNat s + (1 + UInt32.ofNat r) = UInt32.ofNat (s + (1 + r)) := by
  rw [UInt32.ofNat_add, UInt32.ofNat_add]
  rfl

theorem ofNat_shrink {s l : Nat} (h : 1 + l ≤ s) :
    UInt32.ofNat s - (1 + UInt32.ofNat l) = UInt32.ofNat (s - (1 + l)) := by
  rw [UInt32.ofNat_sub h, UInt32.ofNat_add]
  rfl

theorem foldlM_range_item {α : Type} (hs : parents.Holds as)
    (g : α → Nat → α) (x : α) {i : Nat} (hi : i ≤ as.length) :
    (List.range i).foldlM (fun x (i : Nat) => do
      let a ← parents.item i
      some (g x a)) x = some ((as.take i).foldl g x) := by
  induction i with
  | zero => rfl
  | succ i ih =>
    have hget : as[i]? = some as[i] := List.getElem?_eq_getElem hi
    rw [range_succ, foldlM_append, ih (Nat.le_of_succ_le hi), take_succ_eq_append_getElem hi,
      foldl_append]
    simp [hs.item, hget]

/-- **The parents count the new node.** -/
theorem growParents_spec {hole : Ptr} (hm : m₀.Keeps m)
    (hfresh : ∀ a ∈ as, m₀.cells a = none) (hs : parents.Holds as)
    (hpath : Path layout m hole fs as root) (hnodup : (pathKeys fs).Nodup) :
    ∃ m', growParents m parents = some m' ∧ m₀.Keeps m' ∧
      (∀ a, a ∉ as → m'.cells a = m.cells a) ∧
      Path layout m' hole (fs.map (Frame.mapSize (· + 1))) as root := by
  have hcells := Mem.cells_modifyAll as (hpath.nodup hnodup) (addSize · 1) m
  refine ⟨as.foldl (fun m a => m.modify a (addSize · 1)) m, ?_, ?_, ?_, ?_⟩
  · unfold growParents
    rw [show parents.len = as.length from hs.index, foldlM_range_item hs _ _ (le_rfl), take_length]
  · intro a n hn
    rw [hcells, if_neg fun ha => Mem.ne_of_cells hn (hfresh a ha) rfl]
    exact hm a n hn
  · intro a ha
    rw [hcells, if_neg ha]
  · refine hpath.mapSize (f := (addSize · 1)) hnodup (fun n => ⟨rfl, rfl, rfl⟩) ?_
      (fun a ha => ?_) fun a n hn _ ha => ?_
    · rintro n v p s ⟨hv, hp, hs⟩
      exact ⟨hv, hp, by simp [addSize, hs, UInt32.ofNat_add]⟩
    · rw [hcells, if_pos ha]
    · rw [hcells, if_neg ha, hn]

/-! ## The rotations of `Put` -/

section Rotate

variable {m : Nodes} {c pa : Nat} {pn : Node TreapNode} {isLeft : Bool}
  {outer inner o t : Tree Hash TicketValue} {k pk : Hash} {v pv : TicketValue} {p s pp ps : Nat}

/-- The writes of a rotation, by the side that the node is on. -/
theorem rotate_eq (hside : pn.left = some c ↔ isLeft = true) :
    rotate m c pa n pn = (childSize m (pn.child (!isLeft))).bind fun otherSize =>
      let m := m.modify c (addSize · (1 + otherSize))
      (childSize m (n.child isLeft)).bind fun outerSize =>
        let m := m.modify pa (subSize · (1 + outerSize))
        some ((m.modify c (·.setChild (!isLeft) (some pa))).modify pa
          (·.setChild isLeft (n.child (!isLeft)))) := by
  unfold rotate
  cases isLeft
  · rw [if_neg (by simp [hside])]
    rfl
  · rw [if_pos (by simp [hside])]
    rfl

/-- **A rotation.** -/
theorem rotate_spec (hc : Rep layout m (some c) (nodeAt isLeft outer k v p s inner))
    (hn : m.cells c = some n) (hpn : m.cells pa = some pn) (hpk : pn.data.key = pk)
    (hshow : layout.Shows pn.data pv pp ps) (hlink : pn.child isLeft = some c)
    (ho : Rep layout m (pn.child (!isLeft)) o)
    (hnodup : (keys (nodeAt isLeft (nodeAt isLeft outer k v p s inner) pk pv pp ps o)).Nodup)
    (hsize : 1 + outer.size ≤ ps) :
    ∃ m', rotate m c pa n pn = some m' ∧ (∀ b, b ≠ c → b ≠ pa → m'.cells b = m.cells b) ∧
      (∃ pn', m'.cells pa = some pn' ∧ pn'.data.key = pk) ∧
      Rep layout m' (some c) (nodeAt isLeft outer k v p (s + (1 + o.size))
        (nodeAt isLeft inner pk pv pp (ps - (1 + outer.size)) o)) := by
  obtain ⟨hk, hshow', houter, hinner⟩ := hc.of_side hn
  change n.data.key = k at hk
  subst hk hpk
  replace hnodup := (keys_nodeAt.trans ((keys_nodeAt.append_right _).cons _)).nodup_iff.1 hnodup
  simp only [cons_append, nodup_cons, mem_append, mem_cons, not_or] at hnodup
  obtain ⟨⟨hkk, ⟨hpouter, hpinner⟩, hpo⟩, ⟨⟨hkouter, hkinner⟩, hko⟩, -⟩ := hnodup
  have hne : pa ≠ c := by
    rintro rfl
    exact hkk (by rw [Option.some.inj (hn.symm.trans hpn)])
  have hside : pn.left = some c ↔ isLeft = true := by
    cases isLeft
    · -- the left child is another node, since it has another key
      refine ⟨fun he => absurd ?_ hko, nofun⟩
      rw [show pn.child (!false) = some c from he] at ho
      exact ho.key_mem hn
    · exact ⟨fun _ => rfl, fun _ => hlink⟩
  have hrotate : ∃ m', rotate m c pa n pn = some m' ∧
      (∀ b, b ≠ c → b ≠ pa → m'.cells b = m.cells b) ∧
      m'.cells c = some ((addSize n (1 + UInt32.ofNat o.size)).setChild (!isLeft) (some pa)) ∧
      m'.cells pa = some ((subSize pn (1 + UInt32.ofNat outer.size)).setChild isLeft
        (n.child (!isLeft))) := by
    have houter' := houter.modify (f := (addSize · (1 + UInt32.ofNat o.size))) hn hkouter
    simp only [rotate_eq hside, childSize_spec ho, bind_some, childSize_spec houter']
    refine ⟨_, rfl, fun b hbc hbp => ?_, ?_, ?_⟩
    · simp [Mem.cells_modify, hbc, hbp]
    · simp [Mem.cells_modify, hne.symm, hn]
    · simp [Mem.cells_modify, hne, hpn]
  obtain ⟨m', hrotate, hothers, hcell, hpcell⟩ := hrotate
  have hother : ∀ (n : Node TreapNode) ptr, (n.setChild (!isLeft) ptr).child isLeft =
      n.child isLeft := by
    intro n ptr
    cases isLeft <;> rfl
  refine ⟨m', hrotate, hothers, ⟨_, hpcell, by simp [subSize]⟩, ?_⟩
  have hinner' : Rep layout m' (some pa)
      (nodeAt isLeft inner pn.data.key pv pp (ps - (1 + outer.size)) o) := by
    refine .side hpcell (by simp [subSize]) ?_ ?_ ?_
    · rw [Node.data_setChild]
      exact ⟨hshow.1, hshow.2.1, by rw [← ofNat_shrink hsize, ← hshow.2.2]; rfl⟩
    · rw [Node.child_setChild]
      exact hinner.frame_two hn hpn hothers hkinner hpinner
    · rw [Node.child_setChild_not]
      exact ho.frame_two hn hpn hothers hko hpo
  refine .side hcell (by simp [addSize]) ?_ ?_ (by rwa [Node.child_setChild])
  · rw [Node.data_setChild]
    exact ⟨hshow'.1, hshow'.2.1, by rw [← ofNat_grow, ← hshow'.2.2]; rfl⟩
  · rw [hother]
    exact houter.frame_two hn hpn hothers hkouter hpouter

variable {as : List Nat} {parents : ParentStack}

/-- After a rotation the node takes the place of its former parent. -/
theorem replace_rotated {m' : Nodes} {pn' : Node TreapNode}
    (hm : m₀.Keeps m) (hfresh : ∀ a ∈ c :: pa :: as, m₀.cells a = none)
    (hrest : Path layout m (some pa) fs as root) (hn : m.cells c = some n)
    (hpn : m.cells pa = some pn) (hothers : ∀ b, b ≠ c → b ≠ pa → m'.cells b = m.cells b)
    (hpn' : m'.cells pa = some pn') (hkey : pn'.data.key = pn.data.key)
    (ht : Rep layout m' (some c) t) (hnt : n.data.key ∈ keys t) (hpt : pn.data.key ∈ keys t)
    (hnodup : (keys t ++ pathKeys fs).Nodup) :
    ∃ m'' root', replaceChild m' as[0]? pa c root = (m'', root') ∧ m₀.Keeps m'' ∧
      Path layout m'' (some c) fs as root' ∧ Rep layout m'' (some c) t := by
  obtain ⟨-, hpathKeys, hdisj⟩ := nodup_append.1 hnodup
  have hbeside : ∀ x ∈ keys t, x ∉ pathKeys fs := fun x hx hmem => hdisj x hx x hmem rfl
  have hm' := hm.of_others (hfresh c (by simp)) (hfresh pa (by simp)) hothers
  have hrest' := hrest.frame_two hn hpn hothers (hbeside _ hnt) (hbeside _ hpt)
  obtain ⟨m'', root', hreplace, hm'', -, hpath, hrep⟩ := replaceChild_spec hm'
    (fun a ha => hfresh a (by simp [ha])) hrest' hpathKeys hpn' (hkey ▸ hbeside _ hpt) (.inl rfl) c
  exact ⟨m'', root', hreplace, hm'', hpath, hrep _ _ ht hbeside⟩

/-- **The rotations of `Put`.** -/
theorem putRotate_spec (hm : m₀.Keeps m)
    (hfresh : ∀ a ∈ c :: as, m₀.cells a = none) (hs : parents.Holds as)
    (hpath : Path layout m (some c) fs as root) (hc : Rep layout m (some c) t)
    (hnodup : (keys t ++ pathKeys fs).Nodup) (ht : t.Sized) (hsized : SizedIn t.size fs) :
    ∃ m' root', putRotate c as.length m parents root = some (m', root') ∧ m₀.Keeps m' ∧
      Rep layout m' root' (rotateUp fs t) := by
  induction fs generalizing m as root parents t with
  | nil =>
    cases hpath
    exact ⟨m, _, rfl, hm, hc⟩
  | cons f fs ih =>
    obtain ⟨n, nl, k, v, p, s, nr, rfl, hn, hk, hshow, -⟩ := hc.of_some
    obtain ⟨isLeft, pk, pv, pp, ps, o, rfl⟩ := exists_frameAt f
    obtain ⟨outer, inner, he⟩ := exists_nodeAt isLeft nl k v p s nr
    rw [he] at hc hnodup ht hsized ⊢
    rw [size_nodeAt] at hsized
    obtain ⟨pa, as, pn, rfl, hpn, hpk, hpshow, hlink, ho, hrest⟩ := hpath.of_step
    obtain ⟨parents', hpop, hs'⟩ := hs.pop
    have hwhole := (nodup_step isLeft).2 hnodup
    rw [rotateUp_at, length_cons, putRotate, hpop]
    simp only [bind_eq_bind, bind_some, hn, hpn, hshow.2.1, hpshow.2.1, ge_iff_le]
    by_cases hprio : pp ≤ p
    · rw [if_pos hprio, if_pos hprio]
      exact ⟨m, root, rfl, hm, hpath.rep hc⟩
    · have hle : 1 + outer.size ≤ ps := by
        have hs₁ := (sized_nodeAt.1 ht).1
        have hs₂ := (sizedIn_frameAt.1 hsized).1
        omega
      obtain ⟨m₁, hrotate, hothers, ⟨pn', hpn', hpk'⟩, hrep⟩ := rotate_spec hc hn hpn hpk hpshow
        hlink ho (nodup_append.1 hwhole).1 hle
      rw [← keys_rotate] at hwhole
      obtain ⟨m₂, root₂, hreplace, hm₂, hpath₂, hrep₂⟩ := replace_rotated hm hfresh hrest hn hpn
        hothers hpn' (hpk'.trans hpk.symm) hrep (by simp [keys_nodeAt.mem_iff, ← hk])
        (by simp [keys_nodeAt.mem_iff, ← hpk]) hwhole
      obtain ⟨ht', hsized'⟩ := sized_rotate ht hsized
      rw [if_neg hprio, if_neg hprio, hrotate]
      simp only [bind_some]
      rw [show parents'.item 0 = as[0]? from hs'.item 0, hreplace]
      exact ih hm₂
        (fun a ha => hfresh a (by rcases mem_cons.1 ha with rfl | ha <;> simp [*])) hs'
        hpath₂ hrep₂ hwhole ht' (by rwa [size_nodeAt])

end Rotate

/-! ## `Put` -/

/-- The nodes make up the tree of an immutable treap. -/
structure Stands (m : Nodes) (t : NodeTreap) (T : Immutable) : Prop where
  rep : Rep layout m t.root T.root
  count : t.count = T.count
  totalSize : t.totalSize = UInt64.ofNat T.totalSize

section Stands

variable {m m' : Nodes} {t : NodeTreap} {T : Immutable} {as : List Nat} {key : Hash}

/-- **Earlier versions keep their contents** as long as nothing is written to their nodes. -/
theorem Stands.mono (h : Stands m t T) (hm : m.Keeps m') : Stands m' t T :=
  ⟨h.rep.mono hm, h.count, h.totalSize⟩

theorem link_spec {parent : Nat}
    (hpath : Path layout m none fs (parent :: as) root) (hnodup : (pathKeys fs).Nodup) (new : Nat) :
    Path layout (m.modify parent fun n =>
      if holeLeft fs then { n with left := some new } else { n with right := some new })
      (some new) fs (parent :: as) root := by
  obtain ⟨n, hn, -⟩ := hpath.cell_of_mem mem_cons_self
  cases hpath with
  | left cell key shows' link right rest =>
    exact Path.setChild true (.left cell key shows' link right rest) hnodup hn rfl
  | right cell key shows' link left rest =>
    exact Path.setChild false (.right cell key shows' link left rest) hnodup hn rfl

theorem putNew_spec (hm : m₀.Keeps m) (hfresh : ∀ a ∈ as, m₀.cells a = none)
    (hs : parents.Holds as) (hpath : Path layout m none fs as root) (hne : fs ≠ [])
    (hnodup : (key :: pathKeys fs).Nodup) (hsized : SizedIn 0 fs) (value : TicketValue) :
    ∃ m₁ m₂ root' parent, growParents (m.alloc (newTreapNode key value value.height)).1 parents =
        some m₁ ∧ parents.item 0 = some parent ∧
      putRotate m.next parents.len (m₁.modify parent fun n => if holeLeft fs then
        { n with left := some m.next } else { n with right := some m.next }) parents
        (parents.item ((parents.len : Int) - 1)) = some (m₂, root') ∧ m₀.Keeps m₂ ∧
      Rep layout m₂ root' (rotateUp (fs.map (Frame.mapSize (· + 1)))
        (.node .nil key value value.height 1 .nil)) := by
  obtain ⟨hkey, hpathKeys⟩ := nodup_cons.1 hnodup
  have halloc := Mem.keeps_alloc m (newTreapNode key value value.height)
  obtain ⟨m₁, hgrow, hm₁, hothers, hpath₁⟩ := growParents_spec (hm.trans halloc) hfresh hs
    (hpath.mono halloc) hpathKeys
  have hnext := hpath.next_not_mem
  obtain ⟨parent, as, rfl⟩ : ∃ parent as', as = parent :: as' := by
    cases hpath with
    | nil => exact absurd rfl hne
    | left => exact ⟨_, _, rfl⟩
    | right => exact ⟨_, _, rfl⟩
  have hlinked := link_spec hpath₁ (by rwa [pathKeys_mapSize]) m.next
  have hcell : ∀ f, (m₁.modify parent f).cells m.next =
      some (newTreapNode key value value.height) := fun f =>
    (Mem.cells_modify_of_ne (ne_of_not_mem_cons hnext)).trans
      ((hothers _ hnext).trans Mem.cells_alloc_self)
  have hroot : root = parents.item ((parents.len : Int) - 1) := by
    rw [hpath.root_eq, hs.bottom, List.getLast?_cons]
    rfl
  obtain ⟨m₂, root', hrotate, hm₂, hrep⟩ := putRotate_spec
    (hm₁.modify (hfresh parent mem_cons_self) _)
    (forall_mem_cons.2 ⟨hm.cells_next, hfresh⟩) hs hlinked
    (.node (hcell _) rfl ⟨rfl, rfl, rfl⟩ .nil .nil) (by simpa [newTreapNode] using hnodup)
    ⟨rfl, trivial, trivial⟩ hsized.grow
  refine ⟨m₁, m₂, root', parent, hgrow, hs.item 0, ?_, hm₂, hrep⟩
  rw [holeLeft_mapSize, hroot, ← hs.index] at hrotate
  exact hrotate

theorem not_mem_keys (h : T.has key = false) : key ∉ keys T.root := by
  rw [← T.lookupList_root_isSome, isSome_eq_false_iff, isNone_iff_eq_none, lookupList_eq_none] at h
  intro hc
  obtain ⟨⟨_, v⟩, hmem, rfl⟩ := mem_map.1 hc
  exact h v hmem

/-- **`Put`** returns, leaves the nodes that were there before alone, and makes the new tree. -/
theorem put_spec (h : Stands m t T) (key : Hash) (value : TicketValue) : ∃ m' t',
    put m t key (some value) = some (m', t') ∧ m.Keeps m' ∧ Stands m' t' (T.put key value) := by
  have hnodup := nodup_of_ascending T.ascending
  obtain ⟨res, hrun, hres⟩ := putWalk_spec key value (.refl m) (forall_mem_nil _)
    Stack.holds_empty (.nil t.root) h.rep (by simpa [pathKeys] using hnodup)
    (le_of_eq (T.count_eq.symm.trans h.count.symm))
  obtain ⟨fs, sub, hd, hplug⟩ := exists_plugAll key T.root
  have hhas : T.has key = true ↔ sub ≠ .nil := isSome_get_iff hd
  rw [hd] at hres
  cases hroot : t.root with
  | none =>
    have hrep := h.rep
    rw [hroot] at hrep
    have hnil := hrep.eq_nil
    rw [hnil] at hd
    cases hd
    have hno : T.has key = false := Bool.eq_false_iff.2 fun hc => hhas.1 hc rfl
    have hcount : T.count = 0 := by rw [T.count_eq, hnil]; rfl
    refine ⟨(m.alloc (newTreapNode key value value.height)).1, ⟨some m.next, 1, nodeBytes⟩, ?_,
      Mem.keeps_alloc _ _, ?_, ?_, ?_⟩
    · unfold put
      rw [hroot]
      rfl
    · simp only [Immutable.put, hnil, Tree.put, descend, map_nil, rotateUp]
      exact .node Mem.cells_alloc_self rfl ⟨rfl, rfl, rfl⟩ .nil .nil
    · simp [Immutable.put, hno, hcount]
    · simp [Immutable.put, hno, T.totalSize_eq, hcount, nodeBytes]
  | some a =>
    have hput : put m t key (some value) = finishPut t key value res := by
      unfold put
      rw [hroot] at hrun ⊢
      exact (congrArg (·.bind (finishPut t key value)) hrun).trans (bind_some _ _)
    cases sub with
    | node l k v p s r =>
      cases res with
      | missing => exact hres.elim
      | found m' newRoot =>
        have hyes : T.has key = true := hhas.2 (by simp)
        refine ⟨m', _, hput, hres.1, ?_, ?_, ?_⟩
        · simp only [Immutable.put, Tree.put, hd]
          exact hres.2
        · simp [Immutable.put, hyes, h.count]
        · simp [Immutable.put, hyes, h.totalSize]
    | nil =>
      cases res with
      | found => exact hres.elim
      | missing m' parents less =>
        obtain ⟨as, root, hm', hfresh, hs, hpath, rfl⟩ := hres
        have hno : T.has key = false := Bool.eq_false_iff.2 fun hc => hhas.1 hc rfl
        have hne : fs ≠ [] := by
          rintro rfl
          have hrep := h.rep
          rw [hroot, ← hplug] at hrep
          cases hrep
        have hperm := keys_plugAll .nil fs
        have hsized : SizedIn (.nil : Tree Hash TicketValue).size fs :=
          (sized_plugAll.1 (hplug ▸ T.sized)).2
        rw [hplug] at hperm
        obtain ⟨m₁, m₂, root', parent, hgrow, hparent, hrotate, hm₂, hrep⟩ := putNew_spec hm'
          hfresh hs hpath hne (nodup_cons.2 ⟨fun hc => not_mem_keys hno (hperm.mem_iff.2 hc),
            hperm.nodup_iff.1 hnodup⟩) hsized value
        refine ⟨m₂, ⟨root', t.count + 1, t.totalSize + nodeBytes⟩, ?_, hm₂, ?_, ?_, ?_⟩
        · rw [hput, finishPut]
          simp only [bind_eq_bind, Mem.alloc_snd, hgrow, hparent, bind_some, hrotate]
        · simp only [Immutable.put, Tree.put, hd]
          exact hrep
        · simp [Immutable.put, hno, h.count]
        · simp [Immutable.put, hno, h.totalSize, nodeBytes]

end Stands

end NodeTreap

end Fnod
