import Fnod.Stake.TreapAccess
import Mathlib.Data.List.Forall2

/-!
# Versions of the ticket treap

The calls of `Put` and `Delete` make version after version of the treap, each from any of the
earlier ones, and all of them share their nodes. A call writes to new nodes only, so every version
goes on to stand for the tickets that it was made with.

* `step_tracks`, `run_tracks` — every version stands for the map that the same calls build.
* `treap_persistent` — the shape of the treaps, and `Get` and `Has`.
* `treap_ordered_access` — `GetByIndex`, `ForEach` and `ForEachByHeight`.
-/

namespace Fnod

open Immutable List NodeMem Option OrdMap StaticStack Treap Treap.Tree

/-- A call that makes a new version. -/
inductive TreapCall where
  | put (key : Hash) (value : Option TicketValue)
  | delete (key : Hash)

namespace TreapCall

def onNodes (m : Nodes) (t : NodeTreap) : TreapCall → Option (Nodes × NodeTreap)
  | put key value => NodeTreap.put m t key value
  | delete key => NodeTreap.delete m t key

def onMap (tickets : Tickets) : TreapCall → Tickets
  | put key (some value) => tickets.insert key value
  | put _ none => tickets
  | delete key => tickets.erase key

/-- A key is only stored with its own height. -/
def StoresAt (heightOf : Hash → Nat) : TreapCall → Prop
  | put key (some value) => value.height = heightOf key
  | _ => True

instance (heightOf : Hash → Nat) : DecidablePred (StoresAt heightOf)
  | put key (some value) => inferInstanceAs (Decidable (value.height = heightOf key))
  | put _ none => isTrue trivial
  | delete _ => isTrue trivial

def onTree (T : Immutable) : TreapCall → Immutable
  | put key (some value) => T.put key value
  | put _ none => T
  | delete key => T.delete key

theorem onNodes_spec {m : Nodes} {t : NodeTreap} {T : Immutable} (h : NodeTreap.Stands m t T)
    (c : TreapCall) : ∃ m' t', c.onNodes m t = some (m', t') ∧ m.Keeps m' ∧
      NodeTreap.Stands m' t' (c.onTree T) := by
  match c with
  | put key (some value) => exact NodeTreap.put_spec h key value
  | put key none => exact ⟨m, t, rfl, .refl m, h⟩
  | delete key => exact NodeTreap.delete_spec h key

theorem toMap_onTree (T : Immutable) (c : TreapCall) : (c.onTree T).toMap = c.onMap T.toMap := by
  match c with
  | put key (some value) => exact T.toMap_put key value
  | put key none => rfl
  | delete key => exact T.toMap_delete key

end TreapCall

/-- The tickets of a map have their own heights. -/
def OwnHeights (heightOf : Hash → Nat) (tickets : Tickets) : Prop :=
  ∀ key value, tickets.get? key = some value → value.height = heightOf key

theorem OwnHeights.call {heightOf : Hash → Nat} {tickets : Tickets} {c : TreapCall}
    (h : OwnHeights heightOf tickets) (hc : c.StoresAt heightOf) :
    OwnHeights heightOf (c.onMap tickets) := by
  intro key value hget
  match c with
  | .put key' (some value') =>
    rw [TreapCall.onMap, OrdMap.get?_insert] at hget
    split_ifs at hget with he
    · cases hget
      exact he ▸ hc
    · exact h key value hget
  | .put _ none => exact h key value hget
  | .delete key' =>
    rw [TreapCall.onMap, OrdMap.get?_erase] at hget
    split_ifs at hget
    exact h key value hget

/-- The priorities are the heights, and every key has its own height. -/
def HeightOrdered (heightOf : Hash → Nat) (T : Immutable) : Prop :=
  T.ByHeight ∧ OwnHeights heightOf T.toMap

theorem HeightOrdered.call {heightOf : Hash → Nat} {T : Immutable} {c : TreapCall}
    (h : HeightOrdered heightOf T) (hc : c.StoresAt heightOf) :
    HeightOrdered heightOf (c.onTree T) := by
  obtain ⟨hby, hown⟩ := h
  refine ⟨?_, c.toMap_onTree T ▸ hown.call hc⟩
  match c with
  | .put key (some value) =>
    refine hby.put fun value' hget => ?_
    rw [hown key value' (by rwa [get?_toMap])]
    exact hc.symm
  | .put _ none => exact hby
  | .delete key => exact hby.delete key

theorem heightOrdered_new (heightOf : Hash → Nat) : HeightOrdered heightOf .new :=
  ⟨forall_mem_nil _, fun _ _ hget => nomatch hget⟩

/-! ## Runs -/

/-- The versions that there are, and the nodes that they share. -/
structure Versions where
  nodes : Nodes
  treaps : List NodeTreap

namespace Versions

/-- `NewImmutable`. -/
def start : Versions := ⟨Mem.empty, [⟨none, 0, 0⟩]⟩

/-- The next version is made from version `c.1`. -/
def step (vs : Versions) (c : Nat × TreapCall) : Option Versions := do
  let t ← vs.treaps[c.1]?
  let (m, t') ← c.2.onNodes vs.nodes t
  some ⟨m, vs.treaps ++ [t']⟩

/-- One call after the other. -/
def run (vs : Versions) (calls : List (Nat × TreapCall)) : Option Versions := calls.foldlM step vs

end Versions

/-- The same call, on the maps that were built so far. -/
def stepMaps (maps : List Tickets) (c : Nat × TreapCall) : Option (List Tickets) := do
  let tickets ← maps[c.1]?
  some (maps ++ [c.2.onMap tickets])

/-- The maps that the calls build, starting from the empty one. -/
def buildMaps (calls : List (Nat × TreapCall)) : Option (List Tickets) :=
  calls.foldlM stepMaps [OrdMap.empty]

/-- **Every version stands for the map of the same calls.** -/
structure Tracks (vs : Versions) (Ts : List Immutable) (maps : List Tickets) : Prop where
  stands : List.Forall₂ (NodeTreap.Stands vs.nodes) vs.treaps Ts
  maps_eq : Ts.map Immutable.toMap = maps

section Runs

variable {vs : Versions} {Ts : List Immutable} {maps maps' : List Tickets}

/-- The version that a tree of the run belongs to. -/
theorem Tracks.version (h : Tracks vs Ts maps) {i : Nat} {T : Immutable} (hT : Ts[i]? = some T) :
    ∃ t, vs.treaps[i]? = some t ∧ NodeTreap.Stands vs.nodes t T := by
  obtain ⟨hi, rfl⟩ := List.getElem?_eq_some_iff.1 hT
  have hi' : i < vs.treaps.length := h.stands.length_eq ▸ hi
  exact ⟨vs.treaps[i], List.getElem?_eq_getElem hi', h.stands.get hi' hi⟩

theorem tracks_start : Tracks .start [Immutable.new] [OrdMap.empty] :=
  ⟨.cons ⟨.nil, rfl, rfl⟩ .nil, rfl⟩

/-- **One call**: a new version from version `c.1`, and the nodes of the others are not written to.
-/
theorem step_tracks {c : Nat × TreapCall} (h : Tracks vs Ts maps)
    (hmaps : stepMaps maps c = some maps') : ∃ vs' T, vs.step c = some vs' ∧ T ∈ Ts ∧
      Tracks vs' (Ts ++ [c.2.onTree T]) maps' ∧ vs.nodes.Keeps vs'.nodes ∧
      vs.treaps <+: vs'.treaps := by
  obtain ⟨tickets, htickets, hmaps⟩ := bind_eq_some_iff.1 hmaps
  cases hmaps
  rw [← h.maps_eq, List.getElem?_map, map_eq_some_iff] at htickets
  obtain ⟨T, hT, rfl⟩ := htickets
  obtain ⟨t, ht, hstands⟩ := h.version hT
  obtain ⟨m', t', hcall, hkeeps, hstands'⟩ := c.2.onNodes_spec hstands
  refine ⟨⟨m', vs.treaps ++ [t']⟩, T, ?_, mem_of_getElem? hT, ⟨?_, ?_⟩, hkeeps, prefix_append _ _⟩
  · simp [Versions.step, ht, hcall]
  · exact rel_append (h.stands.imp fun _ _ hs => hs.mono hkeeps) (.cons hstands' .nil)
  · simp [h.maps_eq, TreapCall.toMap_onTree]

/-- **Any number of calls.** -/
theorem run_tracks {calls : List (Nat × TreapCall)} (h : Tracks vs Ts maps)
    (hmaps : calls.foldlM stepMaps maps = some maps') : ∃ vs' Ts', vs.run calls = some vs' ∧
      Tracks vs' Ts' maps' ∧ vs.nodes.Keeps vs'.nodes ∧ vs.treaps <+: vs'.treaps ∧
      ∀ heightOf, (∀ c ∈ calls, c.2.StoresAt heightOf) → (∀ T ∈ Ts, HeightOrdered heightOf T) →
        ∀ T ∈ Ts', HeightOrdered heightOf T := by
  induction calls generalizing vs Ts maps with
  | nil =>
    cases hmaps
    exact ⟨vs, Ts, rfl, h, .refl _, prefix_refl _, fun _ _ hall => hall⟩
  | cons c calls ih =>
    rw [foldlM_cons] at hmaps
    obtain ⟨maps₁, hstep, hmaps⟩ := bind_eq_some_iff.1 hmaps
    obtain ⟨vs₁, T, hvs₁, hT, htracks₁, hkeeps₁, hprefix₁⟩ := step_tracks h hstep
    obtain ⟨vs', Ts', hrun, htracks, hkeeps, hprefix, hheights⟩ := ih htracks₁ hmaps
    refine ⟨vs', Ts', ?_, htracks, hkeeps₁.trans hkeeps, hprefix₁.trans hprefix, ?_⟩
    · rw [Versions.run, foldlM_cons, hvs₁]
      exact hrun
    · intro heightOf hcalls hall
      obtain ⟨hc, hcalls⟩ := forall_mem_cons.1 hcalls
      refine hheights heightOf hcalls (forall_mem_append.2 ⟨hall, forall_mem_singleton.2 ?_⟩)
      exact (hall T hT).call hc

end Runs

/-! ## The shape of the treaps -/

namespace NodeTreap

/-- A node shows the entry, the priority and the exact size. -/
def exactLayout : Layout TreapNode Hash TicketValue where
  key := TreapNode.key
  Shows d v p s := d.value = v ∧ d.priority = p ∧ d.size.toNat = s

theorem rep_exact {m : Nodes} {ptr : Ptr} {tree : Tree Hash TicketValue}
    (h : Rep layout m ptr tree) (hsized : tree.Sized) (hsize : tree.size < 2 ^ 32) :
    Rep exactLayout m ptr tree := by
  induction h with
  | nil => exact .nil
  | node cell key shows' _ _ ihl ihr =>
    obtain ⟨hs, hl, hr⟩ := hsized
    rw [size_node] at hsize
    exact .node cell key ⟨shows'.1, shows'.2.1, toNat_size shows' hsize⟩ (ihl hl (by omega))
      (ihr hr (by omega))

/-- **A sorted map**: a search tree on the keys and a heap on the heights, in which `Get` and `Has`
find what is in the map. Below 2^32 tickets the sizes are exact. -/
structure SortedMap (m : Nodes) (t : NodeTreap) (tickets : Tickets) : Prop where
  tree : ∃ tree, Rep layout m t.root tree ∧ Ascending tree.toList ∧ tree.Heap ∧
    (∀ a ∈ tree.toList, a.2.1 = a.2.2.height) ∧ tree.Sized ∧
    (tickets.size < 2 ^ 32 → Rep exactLayout m t.root tree)
  len : t.count = tickets.size
  totalSize : tickets.size < 2 ^ 32 → t.totalSize.toNat = nodeSize * tickets.size
  get_eq : ∀ key, get m t key = some (tickets.get? key)
  has_eq : ∀ key, has m t key = some (tickets.get? key).isSome

theorem Stands.sortedMap {m : Nodes} {t : NodeTreap} {T : Immutable} (h : Stands m t T)
    (hby : T.ByHeight) : SortedMap m t T.toMap := by
  have hroot := T.sized.size_eq
  rw [← T.count_eq] at hroot
  refine ⟨⟨T.root, h.rep, T.ascending, T.heap, hby, T.sized, fun hsize => ?_⟩, ?_, fun hsize => ?_,
    ?_, ?_⟩
  · rw [T.size_toMap, len] at hsize
    exact rep_exact h.rep T.sized (by omega)
  · rw [T.size_toMap, h.count, len]
  · rw [T.size_toMap, len] at hsize
    rw [h.totalSize, T.size_toMap, T.totalSize_eq, len]
    refine UInt64.toNat_ofNat_of_lt' ?_
    rw [show nodeSize = 104 from rfl, show UInt64.size = 2 ^ 64 from rfl]
    omega
  · intro key
    rw [get_spec h, T.get?_toMap]
  · intro key
    rw [has_spec h, T.get?_toMap, Immutable.has]

end NodeTreap

open NodeTreap

theorem Tracks.forall₂ {vs : Versions} {Ts : List Immutable} {maps : List Tickets}
    {R : NodeTreap → Tickets → Prop} (h : Tracks vs Ts maps)
    (hR : ∀ t T, T ∈ Ts → Stands vs.nodes t T → R t T.toMap) : List.Forall₂ R vs.treaps maps := by
  obtain ⟨hstands, rfl⟩ := h
  generalize vs.treaps = ts at hstands
  induction hstands with
  | nil => exact .nil
  | cons hs _ ih =>
    exact .cons (hR _ _ mem_cons_self hs) (ih fun t T hT => hR t T (mem_cons_of_mem _ hT))

/-- **The ticket treap is a persistent sorted map.** -/
theorem treap_persistent (heightOf : Hash → Nat) {calls : List (Nat × TreapCall)}
    (hcalls : ∀ c ∈ calls, c.2.StoresAt heightOf) {maps : List Tickets}
    (hmaps : buildMaps calls = some maps) : ∃ vs, Versions.start.run calls = some vs ∧
      List.Forall₂ (SortedMap vs.nodes) vs.treaps maps ∧
      ∀ later maps', later.foldlM stepMaps maps = some maps' →
        ∃ vs', vs.run later = some vs' ∧ vs.treaps <+: vs'.treaps ∧ vs.nodes.Keeps vs'.nodes ∧
          List.Forall₂ (SortedMap vs'.nodes) vs.treaps maps := by
  obtain ⟨vs, Ts, hrun, htracks, -, -, hheights⟩ := run_tracks tracks_start hmaps
  have hby : ∀ T ∈ Ts, T.ByHeight := fun T hT =>
    (hheights heightOf hcalls (by simp [heightOrdered_new]) T hT).1
  refine ⟨vs, hrun, htracks.forall₂ fun t T hT hs => hs.sortedMap (hby T hT), ?_⟩
  intro later maps' hlater
  obtain ⟨vs', Ts', hrun', -, hkeeps, hprefix, -⟩ := run_tracks htracks hlater
  exact ⟨vs', hrun', hprefix, hkeeps, htracks.forall₂ fun t T hT hs =>
    (hs.mono hkeeps).sortedMap (hby T hT)⟩

def liveAt (height : Nat) : TicketValue := ⟨height, false, false, false, false⟩

/-- `n` tickets are put in, one after the other. -/
def putMany (n : Nat) : List (Nat × TreapCall) :=
  (List.range n).map fun i => (i, .put (Hash.ofNat i) (some (liveAt 0)))

theorem ofNat_injective {i j : Nat} (hi : i < 2 ^ 32) (hj : j < 2 ^ 32)
    (h : Hash.ofNat i = Hash.ofNat j) : i = j := by
  refine Bytes.putLE_injective (n := hashSize) ?_ ?_ (reverse_injective (congrArg Hash.bytes h))
  · exact hi.trans (by decide)
  · exact hj.trans (by decide)

theorem buildMaps_putMany {n : Nat} (hn : n ≤ 2 ^ 32) : ∃ maps tickets,
    buildMaps (putMany n) = some maps ∧ maps.length = n + 1 ∧ maps[n]? = some tickets ∧
      tickets.size = n ∧ ∀ j, n ≤ j → j < 2 ^ 32 → tickets.get? (Hash.ofNat j) = none := by
  induction n with
  | zero => exact ⟨_, _, rfl, rfl, rfl, rfl, fun _ _ _ => rfl⟩
  | succ n ih =>
    obtain ⟨maps, tickets, hmaps, hlen, hlast, hsize, hfresh⟩ := ih (by omega)
    refine ⟨maps ++ [tickets.insert (Hash.ofNat n) (liveAt 0)],
      tickets.insert (Hash.ofNat n) (liveAt 0), ?_, ?_, ?_, ?_, ?_⟩
    · rw [putMany, range_succ, map_append, buildMaps, foldlM_append]
      rw [show List.foldlM stepMaps _ ((List.range n).map _) = some maps from hmaps]
      simp [stepMaps, hlast, TreapCall.onMap]
    · simp [hlen]
    · simp [← hlen]
    · rw [OrdMap.size_insert _ (hfresh n (le_refl n) (by omega)), hsize]
    · intro j hj hj'
      rw [OrdMap.get?_insert, if_neg, hfresh j (by omega) hj']
      intro he
      have := ofNat_injective hj' (by omega) he
      omega

/-- With 2^32 tickets in the treap, the size of its root is 0. -/
theorem size_putMany {n : Nat} (hn : n = 2 ^ 32) : ∃ maps vs t tickets a node,
    buildMaps (putMany n) = some maps ∧ maps[n]? = some tickets ∧ tickets.size = n ∧
      Versions.start.run (putMany n) = some vs ∧ vs.treaps[n]? = some t ∧ t.root = some a ∧
      vs.nodes.cells a = some node ∧ node.data.size = 0 := by
  obtain ⟨maps, tickets, hmaps, -, hlast, hsize, -⟩ := buildMaps_putMany (le_of_eq hn)
  obtain ⟨vs, Ts, hrun, htracks, -⟩ := run_tracks tracks_start hmaps
  have hlast' := hlast
  rw [← htracks.maps_eq, List.getElem?_map, map_eq_some_iff] at hlast'
  obtain ⟨T, hT, rfl⟩ := hlast'
  obtain ⟨t, ht, hstands⟩ := htracks.version hT
  have hroot := T.sized.size_eq
  rw [← T.count_eq, ← len, ← T.size_toMap, hsize] at hroot
  cases hptr : t.root with
  | none =>
    have hnil := (hptr ▸ hstands.rep : Rep layout vs.nodes none T.root).eq_nil
    rw [hnil, size_nil] at hroot
    omega
  | some a =>
    obtain ⟨node, l, k, v, p, s, r, htree, hnode, -, hshow, -⟩ := (hptr ▸ hstands.rep).of_some
    refine ⟨maps, vs, t, T.toMap, a, node, hmaps, hlast, hsize, hrun, ht, hptr, hnode, ?_⟩
    rw [htree, size_node] at hroot
    rw [hshow.2.2, hroot, hn]
    rfl

/-- Versions with no, one, two and one ticket, and a second one with two. -/
def someCalls : List (Nat × TreapCall) :=
  [(0, .put (Hash.ofNat 7) (some (liveAt 5))), (1, .put (Hash.ofNat 3) (some (liveAt 2))),
    (2, .delete (Hash.ofNat 7)), (1, .put (Hash.ofNat 9) (some (liveAt 5)))]

theorem treap_persistent_someCalls :
    ∃ maps vs, buildMaps someCalls = some maps ∧ maps.map OrdMap.size = [0, 1, 2, 1, 2] ∧
      Versions.start.run someCalls = some vs ∧
      List.Forall₂ (SortedMap vs.nodes) vs.treaps maps := by
  have hsizes : (buildMaps someCalls).map (List.map OrdMap.size) = some [0, 1, 2, 1, 2] := by
    decide +kernel
  obtain ⟨maps, hmaps, hsizes⟩ := map_eq_some_iff.1 hsizes
  have hstored : ∀ c ∈ someCalls, c.2.StoresAt fun key => if key = Hash.ofNat 3 then 2 else 5 := by
    decide +kernel
  obtain ⟨vs, hrun, hsorted, -⟩ := treap_persistent _ hstored hmaps
  exact ⟨maps, vs, hmaps, hsizes, hrun, hsorted⟩

/-- Each key is stored with one height, and the size of the root is not exact. -/
theorem treap_size_overflow : ∃ calls maps vs, ∃ (i : Nat) (t : NodeTreap) (tickets : Tickets),
    ∃ a node, (∀ c ∈ calls, c.2.StoresAt fun _ => 0) ∧ buildMaps calls = some maps ∧
      maps[i]? = some tickets ∧ tickets.size = 2 ^ 32 ∧ Versions.start.run calls = some vs ∧
      vs.treaps[i]? = some t ∧ t.root = some a ∧ vs.nodes.cells a = some node ∧
      node.data.size = 0 := by
  obtain ⟨n, hn⟩ : ∃ n : Nat, n = 2 ^ 32 := ⟨_, rfl⟩
  obtain ⟨maps, vs, t, tickets, a, node, hmaps, hlast, hsize, hrun, ht, hroot, hnode, hzero⟩ :=
    size_putMany hn
  refine ⟨putMany n, maps, vs, n, t, tickets, a, node, ?_, hmaps, hlast, hsize.trans hn, hrun, ht,
    hroot, hnode, hzero⟩
  intro c hc
  obtain ⟨i, -, rfl⟩ := mem_map.1 hc
  rfl

/-- **Ordered access.** -/
theorem treap_ordered_access {calls : List (Nat × TreapCall)} {maps : List Tickets}
    (hmaps : buildMaps calls = some maps) : ∃ vs, Versions.start.run calls = some vs ∧
      List.Forall₂ (fun t (tickets : Tickets) =>
        (tickets.size < 2 ^ 32 → ∀ i : Nat, i < tickets.size →
          getByIndex vs.nodes t i = tickets.toList[i]?) ∧
        (∀ (σ : Type) fn (s : σ), forEach vs.nodes t fn s = some (callWhile fn tickets.toList s)) ∧
        ∀ heightOf, (∀ c ∈ calls, c.2.StoresAt heightOf) → ∀ (σ : Type) h fn (s : σ),
          forEachByHeight vs.nodes t h fn s =
            some (callWhile fn (tickets.toList.filter (·.2.height < h)) s))
        vs.treaps maps := by
  obtain ⟨vs, Ts, hrun, htracks, -, -, hheights⟩ := run_tracks tracks_start hmaps
  refine ⟨vs, hrun, htracks.forall₂ fun t T hT hs => ⟨?_, ?_, ?_⟩⟩
  · intro hsize i hi
    rw [T.size_toMap] at hsize hi
    rw [getByIndex_spec hs hsize hi, Immutable.getByIndex, getByIndex_eq T.sized,
      ← List.getElem?_map]
    rfl
  · intro σ fn s
    exact forEach_spec hs fn s
  · intro heightOf hcalls σ h fn s
    have hby := (hheights heightOf hcalls (by simp [heightOrdered_new]) T hT).1
    rw [forEachByHeight_spec hs]
    have hlist : T.forEachByHeight h = _ := (TreapSim.mk rfl hby).forEachByHeight h
    rw [hlist]
    rfl

/-- All three kinds of access to the version with the tickets 3 and 7. -/
theorem treap_ordered_access_someCalls :
    ∃ vs t, Versions.start.run someCalls = some vs ∧ vs.treaps[2]? = some t ∧
      getByIndex vs.nodes t 1 = some (Hash.ofNat 7, liveAt 5) ∧
      (∀ (σ : Type) fn (s : σ), forEach vs.nodes t fn s =
        some (callWhile fn [(Hash.ofNat 3, liveAt 2), (Hash.ofNat 7, liveAt 5)] s)) ∧
      ∀ (σ : Type) fn (s : σ), forEachByHeight vs.nodes t 5 fn s =
        some (callWhile fn [(Hash.ofNat 3, liveAt 2)] s) := by
  have hlists : (buildMaps someCalls).bind (fun maps => maps[2]?.map OrdMap.toList) =
      some [(Hash.ofNat 3, liveAt 2), (Hash.ofNat 7, liveAt 5)] := by
    decide +kernel
  obtain ⟨maps, hmaps, hlist⟩ := bind_eq_some_iff.1 hlists
  obtain ⟨tickets, htickets, hlist⟩ := map_eq_some_iff.1 hlist
  have hsize : tickets.size = 2 := congrArg length hlist
  have hstored : ∀ c ∈ someCalls, c.2.StoresAt fun key => if key = Hash.ofNat 3 then 2 else 5 := by
    decide +kernel
  obtain ⟨vs, hrun, haccess⟩ := treap_ordered_access hmaps
  obtain ⟨hi, rfl⟩ := List.getElem?_eq_some_iff.1 htickets
  have hi' : 2 < vs.treaps.length := haccess.length_eq ▸ hi
  obtain ⟨hindex, heach, hheight⟩ := haccess.get hi' hi
  simp only [List.get_eq_getElem] at hindex heach hheight
  refine ⟨vs, vs.treaps[2], hrun, List.getElem?_eq_getElem hi', ?_, ?_, ?_⟩
  · refine (hindex (by omega) 1 (by omega)).trans ?_
    rw [hlist]
    rfl
  · rwa [hlist] at heach
  · intro σ fn s
    rw [hheight _ hstored, hlist]
    rfl

/-- A ticket that is put in again at height 100 is still visited below height 50; and with 2^32
tickets there is none at position 1. -/
theorem treap_access_fails :
    (∃ vs t, Versions.start.run [(0, .put (Hash.ofNat 7) (some (liveAt 5))),
        (1, .put (Hash.ofNat 7) (some (liveAt 100)))] = some vs ∧ vs.treaps[2]? = some t ∧
      get vs.nodes t (Hash.ofNat 7) = some (some (liveAt 100)) ∧
      forEachByHeight vs.nodes t 50 (fun k v s => (s ++ [(k, v)], true)) [] =
        some [(Hash.ofNat 7, liveAt 100)]) ∧
    ∃ calls maps vs, ∃ (i : Nat) (t : NodeTreap) (tickets : Tickets),
      buildMaps calls = some maps ∧ maps[i]? = some tickets ∧ 1 < tickets.size ∧
      Versions.start.run calls = some vs ∧ vs.treaps[i]? = some t ∧
      getByIndex vs.nodes t 1 = none := by
  constructor
  · have hvisit : (do
        let vs ← Versions.start.run [(0, .put (Hash.ofNat 7) (some (liveAt 5))),
          (1, .put (Hash.ofNat 7) (some (liveAt 100)))]
        let t ← vs.treaps[2]?
        let value ← get vs.nodes t (Hash.ofNat 7)
        let visited ← forEachByHeight vs.nodes t 50 (fun k v s => (s ++ [(k, v)], true)) []
        some (value, visited)) = some (some (liveAt 100), [(Hash.ofNat 7, liveAt 100)]) := by
      decide +kernel
    obtain ⟨vs, hrun, hvisit⟩ := bind_eq_some_iff.1 hvisit
    obtain ⟨t, ht, hvisit⟩ := bind_eq_some_iff.1 hvisit
    obtain ⟨value, hvalue, hvisit⟩ := bind_eq_some_iff.1 hvisit
    obtain ⟨visited, hvisited, hvisit⟩ := bind_eq_some_iff.1 hvisit
    cases hvisit
    exact ⟨vs, t, hrun, ht, hvalue, hvisited⟩
  · obtain ⟨n, hn⟩ : ∃ n : Nat, n = 2 ^ 32 := ⟨_, rfl⟩
    obtain ⟨maps, vs, t, tickets, a, node, hmaps, hlast, hsize, hrun, ht, hroot, hnode, hzero⟩ :=
      size_putMany hn
    refine ⟨putMany n, maps, vs, n, t, tickets, hmaps, hlast, by omega, hrun, ht, ?_⟩
    rw [NodeTreap.getByIndex, hroot]
    simp [hnode, hzero]

end Fnod
