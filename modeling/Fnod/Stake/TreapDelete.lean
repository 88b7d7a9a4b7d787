import Fnod.Stake.TreapRefine

/-!
# `Delete` on nodes

`Delete` walks down to the node, copies the nodes on the way, rotates the copy of the node down to a
leaf position and cuts it off. The rotations are the `merge` of its two subtrees: each of them
leaves one more node behind on the path (`sink_spec`).
-/

namespace Fnod

open List List.Perm NodeMem Option OrdMap StaticStack Treap Treap.Tree

namespace NodeTreap

/-! ## The walk -/

/-- The nodes from a place in the tree down to the node with the key, outermost first. -/
inductive Trail (m : Nodes) (key : Hash) : Ptr → Tree Hash TicketValue → List Nat → Prop
  | here {a : Nat} {n : Node TreapNode} {l r : Tree Hash TicketValue} {k : Hash} {v : TicketValue}
      {p s : Nat} (cell : m.cells a = some n) (same : n.data.key = key) :
      Trail m key (some a) (.node l k v p s r) [a]
  | side {a : Nat} {n : Node TreapNode} {isLeft : Bool} {t o : Tree Hash TicketValue} {k : Hash}
      {v : TicketValue} {p s : Nat} {trail : List Nat} (cell : m.cells a = some n)
      (turn : bif isLeft then key < n.data.key else n.data.key < key)
      (rest : Trail m key (n.child isLeft) t trail) :
      Trail m key (some a) (nodeAt isLeft t k v p s o) (a :: trail)

variable {m₀ m : Nodes} {k : Hash} {v : TicketValue} {p s : Nat} {l r : Tree Hash TicketValue}
  {fs : List (Frame Hash TicketValue)} {root : Ptr} {as : List Nat}

section Walk

variable {key : Hash} {t : Tree Hash TicketValue} {ptr : Ptr} {trail : List Nat}
  {n : Node TreapNode} {parents newParents : ParentStack}

/-- The last node of the trail is the node with the key. -/
theorem Trail.last (h : Trail m key ptr t trail) (ht : Rep layout m ptr t)
    (hd : descend key t [] = (fs, .node l k v p s r)) :
    ∃ a d, trail.getLast? = some a ∧ m.cells a = some d ∧ Rep layout m d.left l ∧
      Rep layout m d.right r ∧ trail.length = fs.length + 1 := by
  induction h generalizing fs with
  | @here a n l' r' k' v' p' s' cell same =>
    obtain ⟨hk, -, hl, hr⟩ := ht.of_cell cell
    rw [layout_key, same] at hk
    rw [descend, if_neg (hk ▸ lt_irrefl _), if_neg (hk ▸ lt_irrefl _)] at hd
    cases hd
    exact ⟨a, n, rfl, cell, hl, hr, rfl⟩
  | @side a n isLeft t o k' v' p' s' trail cell turn rest ih =>
    obtain ⟨rfl, -, ht, -⟩ := ht.of_side cell
    rw [layout_key, descend_nodeAt turn] at hd
    obtain ⟨rfl, hsub⟩ := Prod.mk.inj hd
    obtain ⟨b, d, hlast, hcell, hdl, hdr, hlen⟩ := ih ht (Prod.ext rfl hsub)
    refine ⟨b, d, ?_, hcell, hdl, hdr, by simp [hlen]⟩
    rw [List.getLast?_cons, hlast]
    rfl

/-- What the walk of `Delete` finds: nothing, or the node with the key and the nodes above it. -/
def Walked (m : Nodes) (key : Hash) (ptr : Ptr) (t : Tree Hash TicketValue) (as : List Nat)
    (res : Option (ParentStack × Ptr)) : Prop :=
  ((descend key t []).2 = .nil → ∃ parents', res = some (parents', none)) ∧
    ((descend key t []).2 ≠ .nil → ∃ parents' trail a, res = some (parents', some a) ∧
      Trail m key ptr t trail ∧ trail.getLast? = some a ∧ parents'.Holds (trail.reverse ++ as))

theorem Walked.side (isLeft : Bool) {a : Nat} {o : Tree Hash TicketValue}
    {res : Option (ParentStack × Ptr)} (hn : m.cells a = some n)
    (turn : bif isLeft then key < n.data.key else n.data.key < key)
    (h : Walked m key (n.child isLeft) t (a :: as) res) :
    Walked m key (some a) (nodeAt isLeft t n.data.key v p s o) as res := by
  rw [Walked, descend_nodeAt turn]
  refine ⟨h.1, fun hne => ?_⟩
  obtain ⟨parents', trail, b, hrun, htrail, hlast, hholds⟩ := h.2 hne
  refine ⟨parents', a :: trail, b, hrun, .side hn turn htrail, ?_, by simpa using hholds⟩
  rw [List.getLast?_cons, hlast]
  rfl

/-- **The walk of `Delete`.** -/
theorem deleteWalk_spec {t : Tree Hash TicketValue} {ptr : Ptr} {as : List Nat}
    {parents : ParentStack} {fuel : Nat} (ht : Rep layout m ptr t) (hs : parents.Holds as)
    (hfuel : t.toList.length ≤ fuel) :
    Walked m key ptr t as (deleteWalk key fuel m ptr parents) := by
  induction t generalizing ptr as parents fuel with
  | nil =>
    cases ht
    refine ⟨fun _ => ⟨parents, ?_⟩, fun hc => absurd rfl hc⟩
    cases fuel <;> rfl
  | node l k v p s r ihl ihr =>
    obtain ⟨a, n, rfl, hn, rfl, -, hl, hr⟩ := ht.of_node
    obtain ⟨fuel, rfl, hfl, hfr⟩ := exists_fuel hfuel
    have hs' := hs.push a
    rw [deleteWalk, hn]
    simp only [bind_eq_bind, bind_some]
    split_ifs with hlt hgt
    · exact Walked.side true hn hlt (ihl hl hs' hfl)
    · exact Walked.side false hn hgt (ihr hr hs' hfr)
    · have hsame : n.data.key = key := le_antisymm (not_lt.1 hlt) (not_lt.1 hgt)
      rw [Walked, descend, layout_key, if_neg hlt, if_neg hgt]
      exact ⟨(fun hc => by cases hc), fun _ => ⟨_, [a], a, rfl, .here hn hsame, rfl, hs'⟩⟩

theorem shows_subSize (h : layout.Shows n.data v p s) (hs : 1 ≤ s) :
    layout.Shows (subSize n 1).data v p (s - 1) := by
  refine ⟨h.1, h.2.1, ?_⟩
  rw [UInt32.ofNat_sub hs, ← h.2.2]
  rfl

theorem clone_step (isLeft : Bool) {a i : Nat} {o : Tree Hash TicketValue}
    (hn : m₀.cells a = some n) (hitem : parents.item i = some a) (hm : m₀.Keeps m)
    (hfresh : ∀ a ∈ as, m₀.cells a = none) (hs : newParents.Holds as)
    (hpath : Path layout m (some a) fs as root)
    (ht : Rep layout m (some a) (nodeAt isLeft t k v p s o))
    (hnodup : (keys (nodeAt isLeft t k v p s o) ++ pathKeys fs).Nodup)
    (hsized : (nodeAt isLeft t k v p s o).Sized) :
    ∃ m' root', cloneParents parents (i + 1) m newParents =
        cloneParents parents i m' (newParents.push m.next) ∧ m₀.Keeps m' ∧
      (∀ b ∈ m.next :: as, m₀.cells b = none) ∧ m'.cells m.next = some (subSize n 1) ∧
      Path layout m' (some m.next) fs as root' ∧ n.data.key = k ∧
      layout.Shows (subSize n 1).data v p (s - 1) ∧ Rep layout m' (n.child isLeft) t ∧
      Rep layout m' (n.child !isLeft) o := by
  have hn' := hm a n hn
  have hsize := (sized_nodeAt.1 hsized).1
  obtain ⟨hk, hshow, ht, ho⟩ := ht.of_side hn'
  rw [layout_key] at hk
  obtain ⟨-, hpathKeys, hdisj⟩ := nodup_append.1 hnodup
  have hbeside : ∀ x ∈ k :: (keys t ++ keys o), x ∉ pathKeys fs :=
    fun x hx hmem => hdisj x (keys_nodeAt.mem_iff.2 hx) x hmem rfl
  obtain ⟨m', root', hlink, hm', hfresh', hcell, hpath', hrep⟩ := linkCopy_spec hm hfresh hs hpath
    hpathKeys hn' (hk ▸ hbeside k (by simp)) (subSize n 1)
  refine ⟨m', root', ?_, hm', hfresh', hcell, hpath', hk, shows_subSize hshow (by omega), ?_, ?_⟩
  · rw [cloneParents, hitem]
    simp only [bind_eq_bind, bind_some, hn', Mem.alloc_snd, hlink]
  · exact hrep _ _ ht fun x hx => hbeside x (by simp [hx])
  · exact hrep _ _ ho fun x hx => hbeside x (by simp [hx])

/-- **The parents are copied**, and the node itself. -/
theorem cloneParents_spec {fs' : List (Frame Hash TicketValue)} (htrail : Trail m₀ key ptr t trail)
    (hitem : ∀ i : Nat, i < trail.length → parents.item i = trail.reverse[i]?) (hm : m₀.Keeps m)
    (hfresh : ∀ a ∈ as, m₀.cells a = none) (hs : newParents.Holds as)
    (hpath : Path layout m ptr fs as root) (ht : Rep layout m ptr t)
    (hnodup : (keys t ++ pathKeys fs).Nodup) (hsized : t.Sized)
    (hd : descend key t [] = (fs', .node l k v p s r)) :
    ∃ m' newParents' c d as' root', cloneParents parents trail.length m newParents =
        some (m', newParents') ∧ m₀.Keeps m' ∧ newParents'.Holds (c :: as') ∧
      (∀ a ∈ c :: as', m₀.cells a = none) ∧
      Path layout m' (some c) (fs'.map (Frame.mapSize (· - 1)) ++ fs) as' root' ∧
      m'.cells c = some d ∧ d.data.key = k ∧ Rep layout m' d.left l ∧ Rep layout m' d.right r := by
  induction htrail generalizing m fs as fs' root newParents with
  | @here a n l' r' k' v' p' s' cell same =>
    obtain ⟨m', root', hstep, hm', hfresh', hcell, hpath', rfl, -, hl, hr⟩ :=
      clone_step true cell (hitem 0 (by simp)) hm hfresh hs hpath ht hnodup hsized
    rw [descend, if_neg (same ▸ lt_irrefl _), if_neg (same ▸ lt_irrefl _)] at hd
    cases hd
    exact ⟨m', _, m.next, _, as, root', hstep, hm', hs.push _, hfresh', hpath', hcell, rfl, hl, hr⟩
  | @side a n isLeft t o k' v' p' s' trail cell turn rest ih =>
    obtain ⟨m', root', hstep, hm', hfresh', hcell, hpath', rfl, hshow, ht, ho⟩ :=
      clone_step isLeft cell ((hitem trail.length (by simp)).trans (by simp)) hm hfresh hs hpath ht
        hnodup hsized
    rw [descend_nodeAt turn] at hd
    obtain ⟨rfl, hsub⟩ := Prod.mk.inj hd
    have hbelow : ∀ i : Nat, i < trail.length → parents.item i = trail.reverse[i]? := by
      intro i hi
      rw [hitem i (by simp; omega), reverse_cons,
        List.getElem?_append_left (by rwa [length_reverse])]
    rw [nodup_step, pathKeys_frameAt] at hnodup
    obtain ⟨m₂, newParents₂, c, d, as₂, root₂, hrun, hrest⟩ := ih hbelow hm' hfresh' (hs.push _)
      (.step hcell rfl hshow rfl ho hpath') ht (by rw [pathKeys_frameAt]; exact hnodup)
      (sized_nodeAt.1 hsized).2.1 (Prod.ext rfl hsub)
    refine ⟨m₂, newParents₂, c, d, as₂, root₂, hstep.trans hrun, ?_⟩
    rw [map_append, append_assoc, map_singleton, mapSize_frameAt]
    exact hrest

end Walk

/-! ## The rotations -/

section Sink

variable {m₂ : Nodes} {c ch : Nat} {d cn : Node TreapNode} {outer inner o : Tree Hash TicketValue}
  {newRoot : Ptr} {isLeft : Bool}

/-- **The rotations, at the head of the loop**: `c` is the node that is deleted, with subtrees `l`
and `r`, below the path `fs`. All the nodes of the path are new. -/
structure Sinking (m₀ m : Nodes) (c : Nat) (d : Node TreapNode) (l r : Tree Hash TicketValue)
    (fs : List (Frame Hash TicketValue)) (as : List Nat) (root newRoot : Ptr) : Prop where
  keeps : m₀.Keeps m
  fresh : ∀ a ∈ c :: as, m₀.cells a = none
  path : Path layout m (some c) fs as root
  cell : m.cells c = some d
  left : Rep layout m d.left l
  right : Rep layout m d.right r
  nodup : (d.data.key :: (keys l ++ keys r ++ pathKeys fs)).Nodup
  newRoot_eq : newRoot = root ∨ as = []

/-- The copies of the parents are the path of the node that is deleted. -/
theorem Sinking.start {newParents : ParentStack} (hm : m₀.Keeps m)
    (hfresh : ∀ a ∈ c :: as, m₀.cells a = none)
    (hpath : Path layout m (some c) (fs.map (Frame.mapSize (· - 1))) as root)
    (hcell : m.cells c = some d) (hl : Rep layout m d.left l) (hr : Rep layout m d.right r)
    (hnodup : (keys (plugAll (.node l d.data.key v p s r) fs)).Nodup) (hs : newParents.Holds as) :
    Sinking m₀ m c d l r (fs.map (Frame.mapSize (· - 1))) as root
      (newParents.item ((newParents.len : Int) - 1)) := by
  refine ⟨hm, hfresh, hpath, hcell, hl, hr, ?_, ?_⟩
  · rw [pathKeys_mapSize]
    refine (nodup_iff ?_).1 ((keys_plugAll _ fs).nodup_iff.1 hnodup)
    simp
  · rw [hs.bottom, hpath.root_eq]
    cases as with
    | nil => exact .inr rfl
    | cons b as => exact .inl (by rw [List.getLast?_cons]; rfl)

/-- After a rotation the copy of the child takes the place of the node that is deleted. -/
theorem Sinking.replace {d' : Node TreapNode} (h : Sinking m₀ m c d l r fs as root newRoot)
    (hothers : ∀ b, b ≠ m.next → b ≠ c → m₂.cells b = m.cells b)
    (hcell : m₂.cells c = some d') (hkey : d'.data.key = d.data.key) :
    ∃ m₃ root₃, replaceChild m₂ as[0]? c m.next newRoot = (m₃, root₃) ∧ m₀.Keeps m₃ ∧
      (∀ a ∈ c :: m.next :: as, m₀.cells a = none) ∧ Path layout m₃ (some m.next) fs as root₃ ∧
      m₃.cells c = some d' ∧ m₃.cells m.next = m₂.cells m.next ∧
      ∀ ptr t, Rep layout m ptr t → d.data.key ∉ keys t → (∀ x ∈ keys t, x ∉ pathKeys fs) →
        Rep layout m₃ ptr t := by
  obtain ⟨hbeside, hnodup⟩ := nodup_cons.1 h.nodup
  have hpathKeys := (nodup_append.1 hnodup).2.1
  replace hbeside : d.data.key ∉ pathKeys fs := fun hc => hbeside (mem_append_right _ hc)
  -- the nodes with other keys are as they were
  have hframe : ∀ a n, m.cells a = some n → n.data.key ≠ d.data.key → m₂.cells a = some n := by
    intro a n hn hne
    rw [hothers a (Mem.ne_of_cells hn Mem.cells_next), hn]
    rintro rfl
    exact hne (by rw [Option.some.inj (hn.symm.trans h.cell)])
  have hnotin : c ∉ as := fun ha => by
    obtain ⟨n, hn, hk⟩ := h.path.cell_of_mem ha
    rw [Option.some.inj (hn.symm.trans h.cell)] at hk
    exact hbeside hk
  have hm₂ := h.keeps.of_others h.keeps.cells_next (h.fresh c mem_cons_self) hothers
  have hpath₂ := h.path.frame fun a n hn hk => hframe a n hn fun he => hbeside (he ▸ hk)
  obtain ⟨m₃, root₃, hreplace, hm₃, hsame, hpath₃, hrep⟩ := replaceChild_spec hm₂
    (forall_mem_cons.1 h.fresh).2 hpath₂ hpathKeys hcell (hkey ▸ hbeside)
    h.newRoot_eq m.next
  refine ⟨m₃, root₃, hreplace, hm₃, ?_, hpath₃, ?_, ?_, fun ptr t ht hk hdisj => ?_⟩
  · obtain ⟨hc, has⟩ := forall_mem_cons.1 h.fresh
    exact forall_mem_cons.2 ⟨hc, forall_mem_cons.2 ⟨h.keeps.cells_next, has⟩⟩
  · rw [hsame c hnotin, hcell]
  · rw [hsame m.next h.path.next_not_mem]
  · exact hrep ptr t (ht.frame fun a n hn hmem => hframe a n hn fun he => hk (he ▸ hmem)) hdisj

/-- The writes of a rotation, by the side of the child. -/
theorem rotateDown_eq (isLeft : Bool) : rotateDown m c ch d cn isLeft =
    (childSize m (d.child (!isLeft))).bind fun otherSize =>
      some (((m.modify ch (addSize · otherSize)).modify ch
        (·.setChild (!isLeft) (some c))).modify c (·.setChild isLeft (cn.child (!isLeft)))) := by
  cases isLeft <;> rfl

theorem rotateDown_spec (cn : Node TreapNode) (hcell : m.cells c = some d)
    (ho : Rep layout m (d.child (!isLeft)) o) :
    ∃ m₂, rotateDown (m.alloc cn).1 c m.next d cn isLeft = some m₂ ∧
      (∀ b, b ≠ m.next → b ≠ c → m₂.cells b = m.cells b) ∧
      m₂.cells m.next = some ((addSize cn (UInt32.ofNat o.size)).setChild (!isLeft) (some c)) ∧
      m₂.cells c = some (d.setChild isLeft (cn.child (!isLeft))) := by
  have hne := Mem.ne_of_cells hcell Mem.cells_next
  have halloc := Mem.keeps_alloc m cn
  rw [rotateDown_eq, childSize_spec (ho.mono halloc), bind_some]
  refine ⟨_, rfl, fun b hbn hbc => ?_, ?_, ?_⟩
  · simp [Mem.cells_modify, hbn, hbc, Mem.alloc]
  · simp [Mem.cells_modify, hne.symm]
  · simp [Mem.cells_modify, hne, halloc c d hcell]

/-- **A child is lifted**: its copy is one more node of the path. -/
theorem Sinking.lift (h : Sinking m₀ m c d
      (bif isLeft then nodeAt isLeft outer k v p s inner else o)
      (bif isLeft then o else nodeAt isLeft outer k v p s inner) fs as root newRoot)
    (hch : d.child isLeft = some ch) (hcn : m.cells ch = some cn) :
    ∃ m₂ m₃ root₃, rotateDown (m.alloc cn).1 c m.next d cn isLeft = some m₂ ∧
      replaceChild m₂ as[0]? c m.next newRoot = (m₃, root₃) ∧
      Sinking m₀ m₃ c (d.setChild isLeft (cn.child (!isLeft))) (bif isLeft then inner else o)
        (bif isLeft then o else inner) (frameAt (!isLeft) k v p (s + o.size) outer :: fs)
        (m.next :: as) root₃ root₃ := by
  obtain ⟨ht, ho, hnodup⟩ : Rep layout m (d.child isLeft) (nodeAt isLeft outer k v p s inner) ∧
      Rep layout m (d.child (!isLeft)) o ∧
      (d.data.key :: (k :: (keys outer ++ keys inner) ++ keys o ++ pathKeys fs)).Nodup := by
    refine ⟨?_, ?_, (nodup_iff (List.Perm.cons _ ?_)).1 h.nodup⟩
    · cases isLeft
      · exact h.right
      · exact h.left
    · cases isLeft
      · exact h.left
      · exact h.right
    · refine append_right _ ?_
      cases isLeft
      · rw [cond_false, cond_false]
        exact perm_append_comm.trans (keys_nodeAt.append_right _)
      · rw [cond_true, cond_true]
        exact keys_nodeAt.append_right _
  obtain ⟨hk, hshow, houter, hinner⟩ := (hch ▸ ht).of_side hcn
  rw [layout_key] at hk
  obtain ⟨m₂, hrotate, hothers, hnext, hcell⟩ := rotateDown_spec cn h.cell ho
  obtain ⟨m₃, root₃, hreplace, hm₃, hfresh₃, hpath₃, hcell₃, hnext₃, hrep⟩ := h.replace hothers
    hcell (by rw [Node.data_setChild])
  have hbeside := (nodup_append.1 (nodup_cons.1 hnodup).2).2.2
  have hframe : ∀ ptr t, Rep layout m ptr t →
      (∀ x ∈ keys t, x ∈ k :: (keys outer ++ keys inner) ++ keys o) → Rep layout m₃ ptr t := by
    intro ptr t ht hsub
    refine hrep ptr t ht (fun hc => ?_) fun x hx hc => hbeside x (hsub x hx) x hc rfl
    exact (nodup_cons.1 hnodup).1 (mem_append_left _ (hsub _ hc))
  have houter₃ := hframe _ _ houter fun x hx => by simp [hx]
  have hinner₃ := hframe _ _ hinner fun x hx => by simp [hx]
  have ho₃ := hframe _ _ ho fun x hx => by simp [hx]
  have hpath : Path layout m₃ (some c) (frameAt (!isLeft) k v p (s + o.size) outer :: fs)
      (m.next :: as) root₃ := by
    refine .step (hnext₃.trans hnext) (by rwa [Node.data_setChild]) ?_ (Node.child_setChild ..) ?_
      hpath₃
    · rw [Node.data_setChild]
      exact ⟨hshow.1, hshow.2.1, by rw [UInt32.ofNat_add, ← hshow.2.2]; rfl⟩
    · rw [Node.child_setChild_not, Bool.not_not]
      exact houter₃
  have hnodup₃ :
      (d.data.key :: (keys inner ++ keys o ++ (k :: (keys outer ++ pathKeys fs)))).Nodup :=
    (nodup_iff (List.Perm.cons _ (by grind))).1 hnodup
  refine ⟨m₂, m₃, root₃, hrotate, hreplace, ?_⟩
  cases isLeft
  · exact ⟨hm₃, hfresh₃, hpath, hcell₃, ho₃, hinner₃, (nodup_iff (List.Perm.cons _
      (perm_append_comm.append_right _))).1 hnodup₃, .inl rfl⟩
  · exact ⟨hm₃, hfresh₃, hpath, hcell₃, hinner₃, ho₃, hnodup₃, .inl rfl⟩

/-- **The choice of the child** is the choice of the root of the `merge`. -/
theorem chooseChild_spec (hl : Rep layout m d.left l) (hr : Rep layout m d.right r)
    (hne : ¬(d.left = none ∧ d.right = none)) :
    ∃ isLeft ch cn outer k v p s inner o, chooseChild m d = some (ch, isLeft) ∧
      d.child isLeft = some ch ∧ m.cells ch = some cn ∧
      l = (bif isLeft then nodeAt isLeft outer k v p s inner else o) ∧
      r = (bif isLeft then o else nodeAt isLeft outer k v p s inner) ∧
      merge l r = nodeAt isLeft outer k v p (s + o.size)
        (merge (bif isLeft then inner else o) (bif isLeft then o else inner)) := by
  unfold chooseChild
  cases hdl : d.left with
  | none =>
    rw [hdl] at hl
    obtain rfl := hl.eq_nil
    cases hdr : d.right with
    | none => exact absurd ⟨hdl, hdr⟩ hne
    | some b =>
      rw [hdr] at hr
      obtain ⟨n, rl, k, v, p, s, rr, rfl, hn, -⟩ := hr.of_some
      exact ⟨false, b, n, rr, k, v, p, s, rl, .nil, rfl, hdr, hn, rfl, rfl, merge_right (by simp)⟩
  | some a =>
    rw [hdl] at hl
    obtain ⟨n, ll, k, v, p, s, lr, rfl, hn, -⟩ := hl.of_some
    cases hdr : d.right with
    | none =>
      rw [hdr] at hr
      obtain rfl := hr.eq_nil
      exact ⟨true, a, n, ll, k, v, p, s, lr, .nil, rfl, hdl, hn, rfl, rfl, merge_left (by simp)⟩
    | some b =>
      rw [hdr] at hr
      obtain ⟨n', rl, k', v', p', s', rr, rfl, hn', -⟩ := hr.of_some
      obtain ⟨-, ⟨-, hp, -⟩, -⟩ := hl.of_cell hn
      obtain ⟨-, ⟨-, hp', -⟩, -⟩ := hr.of_cell hn'
      simp only [hn, hn', bind_eq_bind, bind_some, hp, hp']
      by_cases hle : p ≤ p'
      · refine ⟨true, a, n, ll, k, v, p, s, lr, _, by simp [hle], hdl, hn, rfl, rfl, merge_left ?_⟩
        intro _ _ _ _ _ _ he
        cases he
        exact hle
      · refine ⟨false, b, n', rr, k', v', p', s', rl, _, by simp [hle], hdr, hn', rfl, rfl,
          merge_right ?_⟩
        intro _ _ _ _ _ _ he
        cases he
        exact hle

theorem sink_leaf (turns : Nat) (parent : Ptr) (hd : m.cells c = some d)
    (hleaf : d.left = none ∧ d.right = none) :
    sink c turns m parent newRoot = some (m, parent, newRoot) := by
  unfold sink
  simp [hd, hleaf]

/-- One rotation and the rest of them. -/
theorem sink_turn {turns : Nat} {m₃ : Nodes} {parent root₃ : Ptr}
    (hd : m.cells c = some d) (hne : ¬(d.left = none ∧ d.right = none))
    (hchoose : chooseChild m d = some (ch, isLeft)) (hcn : m.cells ch = some cn)
    (hrotate : rotateDown (m.alloc cn).1 c m.next d cn isLeft = some m₂)
    (hreplace : replaceChild m₂ parent c m.next newRoot = (m₃, root₃)) :
    sink c (turns + 1) m parent newRoot = sink c turns m₃ (some m.next) root₃ := by
  rw [sink, hd]
  simp only [bind_eq_bind, bind_some, hne, if_false, hchoose, hcn]
  rw [show (m.alloc cn).2 = m.next from rfl, hrotate]
  simp only [bind_some, hreplace]

/-- **The rotations** are the `merge` of the two subtrees: the node ends as a leaf, below the tree
without it. -/
theorem sink_spec (turns : Nat) (h : Sinking m₀ m c d l r fs as root newRoot)
    (hturns : l.toList.length + r.toList.length ≤ turns) :
    ∃ m' newRoot' fs' as' root' d', sink c turns m as[0]? newRoot = some (m', as'[0]?, newRoot') ∧
      Sinking m₀ m' c d' .nil .nil fs' as' root' newRoot' ∧
      plugAll .nil fs' = plugAll (merge l r) fs ∧
      (as' = [] → as = [] ∧ d.left = none ∧ d.right = none) := by
  induction turns generalizing m d l r fs as root newRoot with
  | zero =>
    obtain ⟨rfl, rfl⟩ : l = .nil ∧ r = .nil := by
      cases l <;> cases r <;> simp [Tree.toList] at hturns ⊢
    have hleaf := And.intro h.left.of_nil h.right.of_nil
    exact ⟨m, newRoot, fs, as, root, d, sink_leaf _ _ h.cell hleaf, h, rfl, fun he => ⟨he, hleaf⟩⟩
  | succ turns ih =>
    by_cases hleaf : d.left = none ∧ d.right = none
    · obtain rfl := (hleaf.1 ▸ h.left).eq_nil
      obtain rfl := (hleaf.2 ▸ h.right).eq_nil
      exact ⟨m, newRoot, fs, as, root, d, sink_leaf _ _ h.cell hleaf, h, rfl, fun he => ⟨he, hleaf⟩⟩
    · obtain ⟨isLeft, ch, cn, outer, k, v, p, s, inner, o, hchoose, hch, hcn, rfl, rfl, hmerge⟩ :=
        chooseChild_spec h.left h.right hleaf
      obtain ⟨m₂, m₃, root₃, hrotate, hreplace, h'⟩ := h.lift hch hcn
      obtain ⟨m', newRoot', fs', as', root', d', hrun, hsunk, hplug, hne⟩ := ih h' (by
        cases isLeft <;> simp [nodeAt, Tree.toList] at hturns ⊢ <;> omega)
      refine ⟨m', newRoot', fs', as', root', d', ?_, hsunk, ?_, fun he => ?_⟩
      · exact (sink_turn h.cell hleaf hchoose hcn hrotate hreplace).trans hrun
      · rw [hplug, hmerge]
        cases isLeft <;> rfl
      · cases (hne he).1

/-- **The node is cut off.** -/
theorem Sinking.cut {parent : Nat} (h : Sinking m₀ m c d .nil .nil fs (parent :: as) root newRoot) :
    let m' := m.modify parent fun n =>
      if n.right = some c then { n with right := none } else { n with left := none }
    m₀.Keeps m' ∧ Rep layout m' newRoot (plugAll .nil fs) := by
  intro m'
  have hroot : newRoot = root := h.newRoot_eq.resolve_right (by simp)
  suffices hcut : Path layout m' none fs (parent :: as) root from
    ⟨h.keeps.modify (h.fresh parent (by simp)) _, hroot ▸ hcut.rep .nil⟩
  obtain ⟨hkey, hnodup⟩ := nodup_cons.1 h.nodup
  simp only [NodeMem.keys_nil, nil_append] at hkey hnodup
  have hpath := h.path
  cases hpath with
  | @left _ n k v p s r _ _ _ _ cell key shows' link right rest =>
    -- the other child is another node: it has a key of the tree
    have hother : n.right ≠ some c := fun hc => hkey (by
      have hmem : d.data.key ∈ keys r := (hc ▸ right).key_mem h.cell
      simp [pathKeys, hmem])
    exact Path.setChild true (.left cell key shows' link right rest) hnodup cell (if_neg hother)
  | right cell key shows' link left rest =>
    exact Path.setChild false (.right cell key shows' link left rest) hnodup cell (if_pos link)

end Sink

/-! ## `Delete` -/

/-- **`Delete`** returns, leaves the nodes that were there before alone, and makes the new tree. -/
theorem delete_spec {m : Nodes} {t : NodeTreap} {T : Immutable} (h : Stands m t T) (key : Hash) :
    ∃ m' t', delete m t key = some (m', t') ∧ m.Keeps m' ∧ Stands m' t' (T.delete key) := by
  have hnodup := nodup_of_ascending T.ascending
  obtain ⟨hmissing, hfound⟩ := @deleteWalk_spec m key _ _ _ _ _ h.rep Stack.holds_empty
    (le_of_eq (T.count_eq.symm.trans h.count.symm))
  obtain ⟨fs, sub, hd, hplug⟩ := exists_plugAll key T.root
  have hhas : T.has key = true ↔ sub ≠ .nil := isSome_get_iff hd
  rw [hd] at hmissing hfound
  unfold delete
  cases sub with
  | nil =>
    obtain ⟨parents', hwalk⟩ := hmissing rfl
    have hno : T.has key = false := Bool.eq_false_iff.2 fun hc => hhas.1 hc rfl
    rw [hwalk]
    refine ⟨m, t, rfl, .refl m, ?_, ?_, ?_⟩
    · simp only [Immutable.delete, Tree.delete, hd]
      exact h.rep
    · simp [Immutable.delete, hno, h.count]
    · simp [Immutable.delete, hno, h.totalSize]
  | node l k v p s r =>
    have hyes : T.has key = true := hhas.2 (by simp)
    obtain ⟨parents, trail, a, hwalk, htrail, hlast, hholds⟩ := hfound (by simp)
    obtain ⟨b, d, hlast', hcell, hl, hr, hlen⟩ := htrail.last h.rep hd
    cases hlast.symm.trans hlast'
    rw [append_nil] at hholds
    have hsingle : parents.item 1 = none ↔ fs = [] := by
      rw [show parents.item 1 = trail.reverse[1]? from hholds.item 1, List.getElem?_eq_none_iff,
        length_reverse, hlen]
      simp
    rw [hwalk]
    simp only [bind_eq_bind, bind_some, hcell, hsingle]
    by_cases hone : fs = [] ∧ d.left = none ∧ d.right = none
    · obtain ⟨rfl, hdl, hdr⟩ := hone
      obtain rfl := (hdl ▸ hl).eq_nil
      obtain rfl := (hdr ▸ hr).eq_nil
      have hcount : T.count = 1 := by
        rw [T.count_eq, ← hplug]
        rfl
      simp only [hdl, hdr, and_self, if_true]
      refine ⟨m, _, rfl, .refl m, ?_, ?_, ?_⟩
      · simp only [Immutable.delete, Tree.delete, hd]
        exact .nil
      · simp [Immutable.delete, hyes, hcount]
      · simp [Immutable.delete, hyes, T.totalSize_eq, hcount]
    · simp only [hone, if_false]
      obtain ⟨m₁, newParents, c, d₁, as, root, hclone, hm₁, hholds₁, hfresh, hpath, hcell₁, hk, hl₁,
        hr₁⟩ := cloneParents_spec htrail (fun i _ => hholds.item i) (.refl m)
          (forall_mem_nil _) Stack.holds_empty (.nil t.root) h.rep
          (by simpa [pathKeys] using hnodup) T.sized hd
      rw [append_nil] at hpath
      obtain ⟨newParents', hpop, hholds'⟩ := hholds₁.pop
      have hlenParents : parents.len = trail.length := hholds.index.trans (length_reverse)
      have hlen : l.toList.length + r.toList.length < T.count := by
        rw [T.count_eq, ← hplug, toList_plugAll]
        simp [Tree.toList]
        omega
      have hsinking := Sinking.start hm₁ hfresh hpath hcell₁ hl₁ hr₁ (by rwa [hk, hplug]) hholds'
      obtain ⟨m₂, newRoot, fs', as', root', d', hsink, hsunk, hplug', hne⟩ := sink_spec t.count
        hsinking (h.count ▸ hlen.le)
      cases as' with
      | nil =>
        -- the node was the only one
        obtain ⟨rfl, hdl, hdr⟩ := hne rfl
        obtain rfl := (hdl ▸ hl₁).eq_nil
        obtain rfl := (hdr ▸ hr₁).eq_nil
        have hfs : fs = [] := by simpa using hpath.length_eq.symm
        exact absurd ⟨hfs, hl.of_nil, hr.of_nil⟩ hone
      | cons parent as' =>
        obtain ⟨hm', hrep⟩ := hsunk.cut
        refine ⟨_, ⟨newRoot, t.count - 1, t.totalSize - nodeBytes⟩, ?_, hm', ?_, ?_, ?_⟩
        · rw [hlenParents, hclone]
          simp only [bind_some, hpop]
          rw [show newParents'.item 0 = as[0]? from hholds'.item 0, hsink]
          rfl
        · simp only [Immutable.delete, Tree.delete, hd]
          exact hplug' ▸ hrep
        · simp [Immutable.delete, hyes, h.count]
        · have hpos : nodeSize ≤ T.totalSize :=
            T.totalSize_eq ▸ Nat.le_mul_of_pos_right _ (by omega)
          simp [Immutable.delete, hyes, h.totalSize, nodeBytes, UInt64.ofNat_sub hpos]

end NodeTreap

end Fnod
