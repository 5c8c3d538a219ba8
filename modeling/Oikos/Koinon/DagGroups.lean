/-
The groups of transactions that may run in parallel: depths that are computed with
a memo over the parent links, and hashes that are gathered by their depth.
-/
import Oikos.Lib.Run
import Oikos.Lib.Table
import Oikos.Koinon.Dag

namespace Oikos.Koinon

/-- The orders in which the three hash maps of the computation are iterated. -/
structure HashOrder where
  nodes : List (TxHash × DagNode) → List (TxHash × DagNode)
  depths : List (TxHash × Nat) → List (TxHash × Nat)
  groups : List (Nat × List TxHash) → List (Nat × List TxHash)
  nodes_perm : ∀ l, (nodes l).Perm l
  depths_perm : ∀ l, (depths l).Perm l
  groups_perm : ∀ l, (groups l).Perm l

def HashOrder.inserted : HashOrder :=
  ⟨id, id, id, fun _ => .refl _, fun _ => .refl _, fun _ => .refl _⟩

/-- The depths found so far. -/
abbrev Depths := Table TxHash Nat

namespace Dag

def hashes (dag : Dag) : List TxHash :=
  dag.nodes.keys

/-- One more than the greatest depth of the parents, which are visited one by one. -/
def maxParentDepth (visit : TxHash → Depths → Result DagError Depths) :
    List TxHash → Option Nat → Depths → Result DagError (Option Nat × Depths)
  | [], deepest, depths => .ok (deepest, depths)
  | ph :: rest, deepest, depths => do
    let depths ← visit ph depths
    match depths.get ph with
    | none => .error .panic
    | some d =>
      maxParentDepth visit rest (some (deepest.elim (d + 1) fun m => max m (d + 1))) depths

/-- The depth of a node, after those of its parents; a visited node is not visited again. -/
def computeDepth (dag : Dag) : Nat → TxHash → DagNode → Depths → Result DagError Depths
  | 0, _, _, _ => .error .fuel
  | fuel + 1, hash, node, depths =>
    if (depths.get hash).isSome then .ok depths
    else do
      let visit := fun ph depths =>
        match dag.get ph with
        | none => .error .panic
        | some parent => dag.computeDepth fuel ph parent depths
      let (deepest, depths) ← maxParentDepth visit node.tx.parentHashes none depths
      .ok (depths.insert hash (deepest.getD 0))

def computeDepths (dag : Dag) (fuel : Nat) :
    List (TxHash × DagNode) → Depths → Result DagError Depths
  | [], depths => .ok depths
  | (hash, node) :: rest, depths => do
    let depths ← dag.computeDepth fuel hash node depths
    dag.computeDepths fuel rest depths

/-- `groups.entry(depth).or_default().push(hash)`. -/
def pushGroup (groups : Table Nat (List TxHash)) (p : TxHash × Nat) : Table Nat (List TxHash) :=
  match groups.get p.2 with
  | some _ => groups.modify p.2 fun group => group ++ [p.1]
  | none => groups.insert p.2 [p.1]

/-- The depth of a group, read off its first node. -/
def groupDepth (depthMap : Depths) (group : List TxHash) : Nat :=
  (group.head?.bind depthMap.get).getD 0

/-- The comparison of `sort_by_key`. -/
def groupLe (depthMap : Depths) (g g' : List TxHash) : Bool :=
  groupDepth depthMap g ≤ groupDepth depthMap g'

def parallelizableGroups (dag : Dag) (order : HashOrder) (fuel : Nat) :
    Result DagError (List (List TxHash)) := do
  let nodes := dag.nodes.entries.map fun e => (e.1, e.2)
  let depthMap ← dag.computeDepths fuel (order.nodes nodes) .empty
  let groups := (order.depths depthMap.entries).foldl pushGroup .empty
  let result := (order.groups groups.entries).map Prod.snd
  .ok (result.mergeSort (groupLe depthMap))

variable {dag : Dag} {h child : TxHash} {node : DagNode} {tx : Transaction}
  {depth : TxHash → Nat} {n fuel : Nat} {depths : Depths}

/-! ### Depths -/

/-- One more than the greatest depth of a parent; zero without parents. -/
def longest (depth : TxHash → Nat) (parents : List TxHash) : Nat :=
  (parents.map fun p => depth p + 1).foldr max 0

variable {parents : List TxHash}

theorem lt_longest (hmem : h ∈ parents) : depth h < longest depth parents := by
  induction parents with
  | nil => cases hmem
  | cons p parents ih =>
    rw [longest, List.map_cons, List.foldr_cons]
    rcases List.mem_cons.mp hmem with rfl | hmem
    · exact lt_of_lt_of_le (Nat.lt_succ_self _) (Nat.le_max_left _ _)
    · exact lt_of_lt_of_le (ih hmem) (Nat.le_max_right _ _)

theorem longest_le {m : Nat} (hall : ∀ p ∈ parents, depth p < m) : longest depth parents ≤ m := by
  induction parents with
  | nil => exact Nat.zero_le m
  | cons p parents ih =>
    rw [longest, List.map_cons, List.foldr_cons]
    exact Nat.max_le.mpr ⟨hall p List.mem_cons_self,
      ih fun q hq => hall q (List.mem_cons_of_mem p hq)⟩

theorem longest_congr {depth' : TxHash → Nat}
    (hsame : ∀ p ∈ parents, depth' p = depth p) :
    longest depth' parents = longest depth parents := by
  rw [longest, longest]
  congr 1
  exact List.map_congr_left fun p hp => by rw [hsame p hp]

/-- Every node is one deeper than its deepest parent. -/
structure Graded (dag : Dag) (depth : TxHash → Nat) (n : Nat) : Prop where
  parents : ∀ h child, dag.ListsParent child h → dag.containsKey h = true
  depth_eq : ∀ h node, dag.get h = some node → depth h = longest depth node.tx.parentHashes
  bound : ∀ h, dag.containsKey h = true → depth h < n

theorem graded_new : new.Graded (fun _ => 0) 0 where
  parents h child hlists := by
    obtain ⟨node, hget, -⟩ := hlists
    cases hget
  depth_eq h node hget := by cases hget
  bound h hkey := by cases hkey

theorem Graded.insertStep (hgraded : dag.Graded depth n) (tx : Transaction) :
    ∃ depth', (dag.insertStep tx).Graded depth' (n + 1) := by
  by_cases hins : dag.Insertable tx
  · refine ⟨fun h => if h = tx.hash then longest depth tx.parentHashes else depth h, ?_⟩
    have hold {p : TxHash} (hp : dag.containsKey p = true) :
        (if p = tx.hash then longest depth tx.parentHashes else depth p) = depth p := by
      apply if_neg
      rintro rfl
      rw [hins.1] at hp
      cases hp
    constructor
    case parents =>
      intro h child hlists
      rw [containsKey_insertStep hins]
      rcases (listsParent_insertStep hins child h).mp hlists with ⟨-, hparent⟩ | hlists
      · exact .inr (hins.2 h hparent)
      · exact .inr (hgraded.parents h child hlists)
    case depth_eq =>
      intro h node hget
      rw [get_insertStep hins] at hget
      split at hget
      · next heq =>
        obtain rfl := Option.some.inj hget
        dsimp only
        rw [if_pos heq]
        exact (longest_congr fun p hp => hold (hins.2 p hp)).symm
      · next hne =>
        obtain ⟨old, hfound, rfl⟩ := Option.map_eq_some_iff.mp hget
        dsimp only [pushChildren]
        rw [if_neg hne, hgraded.depth_eq h old hfound]
        exact (longest_congr fun p hp => hold (hgraded.parents p h ⟨old, hfound, hp⟩)).symm
    case bound =>
      intro h hkey
      split
      · exact Nat.lt_succ_of_le (longest_le fun p hp => hgraded.bound p (hins.2 p hp))
      · next hne =>
        rcases (containsKey_insertStep hins h).mp hkey with heq | hkey
        · exact absurd heq hne
        · exact Nat.lt_succ_of_lt (hgraded.bound h hkey)
  · rw [insertStep_of_not_insertable hins]
    exact ⟨depth, hgraded.parents, hgraded.depth_eq, fun h hkey =>
      Nat.lt_succ_of_lt (hgraded.bound h hkey)⟩

theorem exists_graded_foldl (hgraded : dag.Graded depth n) (txs : List Transaction) :
    ∃ depth', (txs.foldl insertStep dag).Graded depth' (n + txs.length) := by
  induction txs generalizing dag depth n with
  | nil => exact ⟨depth, hgraded⟩
  | cons tx txs ih =>
    obtain ⟨depth', hnext⟩ := hgraded.insertStep tx
    obtain ⟨last, hlast⟩ := ih hnext
    refine ⟨last, ?_⟩
    rw [List.length_cons, add_comm txs.length, ← add_assoc]
    exact hlast

theorem Graded.lt_of_listsParent (hgraded : dag.Graded depth n) (hlists : dag.ListsParent child h) :
    depth h < depth child := by
  obtain ⟨node, hget, hmem⟩ := hlists
  rw [hgraded.depth_eq child node hget]
  exact lt_longest hmem

theorem Graded.lt_of_ancestor (hgraded : dag.Graded depth n)
    (hancestor : Relation.TransGen dag.ListsParent child h) : depth h < depth child := by
  induction hancestor with
  | single hlists => exact hgraded.lt_of_listsParent hlists
  | tail _ hlists ih => exact lt_trans (hgraded.lt_of_listsParent hlists) ih

/-! ### The memo -/

/-- The depths found so far are right. -/
def Known (dag : Dag) (depth : TxHash → Nat) (depths : Depths) : Prop :=
  ∀ h d, depths.get h = some d → d = depth h ∧ dag.containsKey h = true

def Visited (dag : Dag) (depth : TxHash → Nat) (h : TxHash) (before after : Depths) : Prop :=
  dag.Known depth after ∧ after.get h = some (depth h) ∧
    ∀ h', (before.get h').isSome → (after.get h').isSome

theorem maxParentDepth_spec {visit : TxHash → Depths → Result DagError Depths}
    (hvisit : ∀ p ∈ parents, ∀ before, dag.Known depth before →
      ∃ after, visit p before = .ok after ∧ dag.Visited depth p before after)
    (hknown : dag.Known depth depths) (deepest : Option Nat) :
    ∃ deepest' after, maxParentDepth visit parents deepest depths = .ok (deepest', after) ∧
      deepest'.getD 0 = max (deepest.getD 0) (longest depth parents) ∧ dag.Known depth after ∧
      ∀ h', (depths.get h').isSome → (after.get h').isSome := by
  induction parents generalizing deepest depths with
  | nil => exact ⟨deepest, depths, rfl, (Nat.max_zero _).symm, hknown, fun _ => id⟩
  | cons p parents ih =>
    obtain ⟨next, hok, hnext, hget, hkept⟩ := hvisit p List.mem_cons_self depths hknown
    obtain ⟨deepest', after, hrest, hmax, hafter, hlater⟩ :=
      ih (fun q hq => hvisit q (List.mem_cons_of_mem p hq)) hnext
        (some (deepest.elim (depth p + 1) fun m => max m (depth p + 1)))
    refine ⟨deepest', after, ?_, ?_, hafter, fun h' hh' => hlater h' (hkept h' hh')⟩
    · rw [maxParentDepth, hok, ok_bind, hget]
      exact hrest
    · rw [hmax, longest, longest, List.map_cons, List.foldr_cons, ← Nat.max_assoc]
      congr 1
      cases deepest with
      | none => exact (Nat.zero_max _).symm
      | some m => rfl

theorem computeDepth_spec (hgraded : dag.Graded depth n) (hget : dag.get h = some node)
    (hfuel : depth h < fuel) (hknown : dag.Known depth depths) :
    ∃ after, dag.computeDepth fuel h node depths = .ok after ∧
    dag.Visited depth h depths after := by
  induction fuel generalizing h node depths with
  | zero => exact absurd hfuel (Nat.not_lt_zero _)
  | succ fuel ih =>
    rw [computeDepth]
    cases hmemo : depths.get h with
    | some d =>
      obtain ⟨rfl, -⟩ := hknown h d hmemo
      exact ⟨depths, rfl, hknown, hmemo, fun _ => id⟩
    | none =>
      have hvisit : ∀ p ∈ node.tx.parentHashes, ∀ before, dag.Known depth before →
          ∃ after, (match dag.get p with
            | none => (.error .panic : Result DagError Depths)
            | some parent => dag.computeDepth fuel p parent before) = .ok after ∧
          dag.Visited depth p before after := by
        intro p hp before hbefore
        have hlists : dag.ListsParent h p := ⟨node, hget, hp⟩
        obtain ⟨parent, hparent⟩ := Option.isSome_iff_exists.mp (hgraded.parents p h hlists)
        rw [hparent]
        have hbelow := hgraded.lt_of_listsParent hlists
        exact ih hparent (by omega) hbefore
      obtain ⟨deepest, after, hok, hmax, hafter, hkept⟩ := maxParentDepth_spec hvisit hknown none
      have hvalue : deepest.getD 0 = depth h := by
        rw [hmax, hgraded.depth_eq h node hget]
        exact Nat.zero_max _
      refine ⟨after.insert h (depth h), ?_, ?_, ?_, ?_⟩
      · rw [Option.isSome_none, if_neg Bool.false_ne_true]
        dsimp only
        rw [hok, ok_bind, hvalue]
      · intro h' d hd
        rw [Table.get_insert] at hd
        split at hd
        · next heq =>
          cases hd
          rw [heq]
          exact ⟨rfl, Option.isSome_iff_exists.mpr ⟨node, hget⟩⟩
        · exact hafter h' d hd
      · rw [Table.get_insert, if_pos rfl]
      · intro h' hh'
        rw [Table.get_insert]
        split
        · rfl
        · exact hkept h' hh'

theorem computeDepths_spec (hgraded : dag.Graded depth n) (hfuel : n ≤ fuel)
    {nodes : List (TxHash × DagNode)} (hnodes : ∀ p ∈ nodes, dag.get p.1 = some p.2)
    (hknown : dag.Known depth depths) :
    ∃ after, dag.computeDepths fuel nodes depths = .ok after ∧ dag.Known depth after ∧
      (∀ p ∈ nodes, (after.get p.1).isSome) ∧
      ∀ h, (depths.get h).isSome → (after.get h).isSome := by
  induction nodes generalizing depths with
  | nil => exact ⟨depths, rfl, hknown, fun p hp => absurd hp List.not_mem_nil, fun _ => id⟩
  | cons p nodes ih =>
    obtain ⟨hash, node⟩ := p
    obtain ⟨hget, hrest⟩ := List.forall_mem_cons.mp hnodes
    have hkey : dag.containsKey hash = true := Option.isSome_iff_exists.mpr ⟨node, hget⟩
    have hbelow := hgraded.bound hash hkey
    obtain ⟨next, hok, hnext, hhash, hkept⟩ :=
      computeDepth_spec hgraded hget (lt_of_lt_of_le hbelow hfuel) hknown
    obtain ⟨after, hafter, hknown', hall, hlater⟩ := ih hrest hnext
    refine ⟨after, ?_, hknown', List.forall_mem_cons.mpr ⟨?_, hall⟩, ?_⟩
    · rw [computeDepths, hok, ok_bind, hafter]
    · exact hlater hash (by rw [hhash]; rfl)
    · exact fun h' hh' => hlater h' (hkept h' hh')

/-! ### Groups -/

def ofDepth (l : List (TxHash × Nat)) (d : Nat) : List TxHash :=
  (l.filter fun p => p.2 = d).map Prod.fst

theorem mem_ofDepth {l : List (TxHash × Nat)} {d : Nat} : h ∈ ofDepth l d ↔ (h, d) ∈ l := by
  simp [ofDepth]

theorem get_pushGroup (groups : Table Nat (List TxHash)) (p : TxHash × Nat) (d : Nat) :
    (pushGroup groups p).get d =
      if d = p.2 then some ((groups.get d).getD [] ++ [p.1]) else groups.get d := by
  unfold pushGroup
  cases hget : groups.get p.2 with
  | none =>
    dsimp only
    rw [Table.get_insert]
    by_cases heq : d = p.2
    · rw [if_pos heq, if_pos heq, heq, hget]
      rfl
    · rw [if_neg heq, if_neg heq]
  | some group =>
    dsimp only
    rw [Table.get_modify]
    by_cases heq : d = p.2
    · rw [if_pos heq, if_pos heq, heq, hget]
      rfl
    · rw [if_neg heq, if_neg heq]

theorem get_foldl_pushGroup (l : List (TxHash × Nat)) (groups : Table Nat (List TxHash)) (d : Nat) :
    (l.foldl pushGroup groups).get d =
      if ofDepth l d = [] then groups.get d
      else some ((groups.get d).getD [] ++ ofDepth l d) := by
  induction l generalizing groups with
  | nil => rfl
  | cons p l ih =>
    rw [List.foldl_cons, ih, get_pushGroup]
    by_cases heq : d = p.2
    · have hcons : ofDepth (p :: l) d = p.1 :: ofDepth l d := by
        rw [ofDepth, List.filter_cons_of_pos (by simpa using heq.symm), List.map_cons, ofDepth]
      rw [hcons, if_pos heq, if_neg (List.cons_ne_nil _ _), Option.getD_some]
      split
      · next hnil => rw [hnil]
      · rw [List.append_assoc, List.singleton_append]
    · have hcons : ofDepth (p :: l) d = ofDepth l d := by
        rw [ofDepth, List.filter_cons_of_neg (by simpa using fun h => heq h.symm), ofDepth]
      rw [hcons, if_neg heq]

theorem mem_entries_groups {l : List (TxHash × Nat)} {e : Nat × List TxHash} :
    e ∈ (l.foldl pushGroup .empty).entries ↔ e.2 = ofDepth l e.1 ∧ e.2 ≠ [] := by
  obtain ⟨d, group⟩ := e
  rw [← Table.get_eq_some_iff, get_foldl_pushGroup]
  by_cases hnil : ofDepth l d = []
  · rw [if_pos hnil, hnil]
    simp
  · rw [if_neg hnil]
    simp only [Table.get_empty, Option.getD_none, List.nil_append, Option.some.injEq]
    constructor
    · rintro rfl
      exact ⟨rfl, hnil⟩
    · exact fun h => h.1.symm

/-- The groups share out the nodes, none is empty, and parents are in earlier ones. -/
structure Layered (dag : Dag) (groups : List (List TxHash)) : Prop where
  partition : groups.flatten.Perm dag.hashes
  nonempty : [] ∉ groups
  earlier : ∀ child h, dag.ListsParent child h → ∃ i j, ∃ (hi : i < groups.length)
    (hj : j < groups.length), h ∈ groups[i] ∧ child ∈ groups[j] ∧ i < j
  apart : ∀ g ∈ groups, ∀ child ∈ g, ∀ h ∈ g, ¬ Relation.TransGen dag.ListsParent child h

theorem mem_hashes : h ∈ dag.hashes ↔ dag.containsKey h = true := by
  rw [containsKey, get, AList.lookup_isSome, AList.mem_keys]
  rfl

theorem Graded.layered (hgraded : dag.Graded depth n) {groups : List (List TxHash)}
    (hpartition : groups.flatten.Perm dag.hashes) (hnonempty : [] ∉ groups)
    (hlevel : ∀ g ∈ groups, ∀ a ∈ g, ∀ b ∈ g, depth a = depth b)
    (hsorted : groups.Pairwise fun g g' => ∀ a ∈ g, ∀ b ∈ g', depth a < depth b) :
    dag.Layered groups where
  partition := hpartition
  nonempty := hnonempty
  earlier child h hlists := by
    have hbelow := hgraded.lt_of_listsParent hlists
    have hfind {a : TxHash} (hkey : dag.containsKey a = true) :
        ∃ i, ∃ (hi : i < groups.length), a ∈ groups[i] := by
      obtain ⟨g, hg, ha⟩ := List.mem_flatten.mp (hpartition.mem_iff.mpr (mem_hashes.mpr hkey))
      obtain ⟨i, hi, rfl⟩ := List.mem_iff_getElem.mp hg
      exact ⟨i, hi, ha⟩
    obtain ⟨i, hi, hparent⟩ := hfind (hgraded.parents h child hlists)
    obtain ⟨node, hget, -⟩ := hlists
    obtain ⟨j, hj, hchild⟩ := hfind (Option.isSome_iff_exists.mpr ⟨node, hget⟩)
    refine ⟨i, j, hi, hj, hparent, hchild, ?_⟩
    rcases Nat.lt_trichotomy i j with hlt | rfl | hgt
    · exact hlt
    · have := hlevel _ (List.getElem_mem hi) h hparent child hchild
      omega
    · have := List.pairwise_iff_getElem.mp hsorted j i hj hi hgt child hchild h hparent
      omega
  apart g hg child hchild h hh hancestor := by
    have hbelow := hgraded.lt_of_ancestor hancestor
    have := hlevel g hg child hchild h hh
    omega

theorem groupLe_iff {g g' : List TxHash} :
    groupLe depths g g' = true ↔ groupDepth depths g ≤ groupDepth depths g' :=
  decide_eq_true_iff

theorem groupLe_trans (a b c : List TxHash) (hab : groupLe depths a b) (hbc : groupLe depths b c) :
    groupLe depths a c :=
  groupLe_iff.mpr (Nat.le_trans (groupLe_iff.mp hab) (groupLe_iff.mp hbc))

theorem groupLe_total (a b : List TxHash) : groupLe depths a b || groupLe depths b a := by
  rw [Bool.or_eq_true, groupLe_iff, groupLe_iff]
  exact Nat.le_total _ _

theorem Graded.layered_groups (hgraded : dag.Graded depth n) (hknown : dag.Known depth depths)
    (hall : ∀ h, dag.containsKey h = true → (depths.get h).isSome) (order : HashOrder) :
    dag.Layered (((order.groups ((order.depths depths.entries).foldl pushGroup .empty).entries).map
      Prod.snd).mergeSort (groupLe depths)) := by
  generalize hl : order.depths depths.entries = l
  generalize hgroups : order.groups (l.foldl pushGroup .empty).entries = entries
  have hlperm : l.Perm depths.entries := hl ▸ order.depths_perm _
  have hgperm : entries.Perm (l.foldl pushGroup .empty).entries := hgroups ▸ order.groups_perm _
  have hmem {h : TxHash} {d : Nat} : (h, d) ∈ l ↔ d = depth h ∧ dag.containsKey h = true := by
    rw [hlperm.mem_iff, ← Table.get_eq_some_iff]
    constructor
    · exact hknown h d
    · rintro ⟨rfl, hkey⟩
      obtain ⟨d, hd⟩ := Option.isSome_iff_exists.mp (hall h hkey)
      rw [hd, (hknown h d hd).1]
  -- every group holds the present hashes of one depth
  have hentry : ∀ e ∈ entries, e.2 ≠ [] ∧
      ∀ h, h ∈ e.2 ↔ e.1 = depth h ∧ dag.containsKey h = true := by
    intro e he
    obtain ⟨hgroup, hne⟩ := mem_entries_groups.mp (hgperm.mem_iff.mp he)
    exact ⟨hne, fun h => by rw [hgroup, mem_ofDepth, hmem]⟩
  have hkey : ∀ e ∈ entries, groupDepth depths e.2 = e.1 := by
    intro e he
    obtain ⟨hne, hin⟩ := hentry e he
    obtain ⟨h, rest, hcons⟩ := List.exists_cons_of_ne_nil hne
    obtain ⟨hd, hpresent⟩ := (hin h).mp (hcons ▸ List.mem_cons_self)
    obtain ⟨d, hget⟩ := Option.isSome_iff_exists.mp (hall h hpresent)
    rw [groupDepth, hcons, List.head?_cons, Option.bind_some, hget, Option.getD_some,
      (hknown h d hget).1, hd]
  have hdistinct : entries.Pairwise fun e e' => e.1 ≠ e'.1 := by
    have hnodup := List.pairwise_map.mp (l.foldl pushGroup .empty).nodup
    exact (hgperm.pairwise_iff fun h => h.symm).mpr hnodup
  generalize hresult : (entries.map Prod.snd).mergeSort (groupLe depths) = result
  have hrperm : result.Perm (entries.map Prod.snd) := hresult ▸ List.mergeSort_perm _ _
  have hgroup : ∀ g ∈ result, ∃ e ∈ entries, e.2 = g ∧ groupDepth depths g = e.1 := by
    intro g hg
    obtain ⟨e, he, rfl⟩ := List.mem_map.mp (hrperm.mem_iff.mp hg)
    exact ⟨e, he, rfl, hkey e he⟩
  have hdepth : ∀ g ∈ result, ∀ a ∈ g, depth a = groupDepth depths g := by
    intro g hg a ha
    obtain ⟨e, he, rfl, hkey⟩ := hgroup g hg
    rw [hkey]
    exact (((hentry e he).2 a).mp ha).1.symm
  have hstrict : result.Pairwise fun g g' => groupDepth depths g < groupDepth depths g' := by
    have hle : result.Pairwise fun g g' => groupDepth depths g ≤ groupDepth depths g' := by
      have hsorted : result.Pairwise fun g g' => groupLe depths g g' = true :=
        hresult ▸ List.pairwise_mergeSort groupLe_trans groupLe_total (entries.map Prod.snd)
      exact hsorted.imp groupLe_iff.mp
    have hne : result.Pairwise fun g g' => groupDepth depths g ≠ groupDepth depths g' := by
      refine (hrperm.pairwise_iff fun h => h.symm).mpr (List.pairwise_map.mpr ?_)
      exact hdistinct.imp_of_mem fun he he' hne => by rwa [hkey _ he, hkey _ he']
    exact (hle.and hne).imp fun h => Nat.lt_of_le_of_ne h.1 h.2
  have hsorted : result.Pairwise fun g g' => ∀ a ∈ g, ∀ b ∈ g', depth a < depth b :=
    hstrict.imp_of_mem fun hg hg' hlt a ha b hb => by
      rwa [hdepth _ hg a ha, hdepth _ hg' b hb]
  apply hgraded.layered
  · refine (List.perm_ext_iff_of_nodup ?_ dag.nodes.keys_nodup).mpr fun h => ?_
    · refine List.nodup_flatten.mpr ⟨fun g hg => ?_, hsorted.imp fun hlt a ha hb => ?_⟩
      · obtain ⟨e, he, rfl, -⟩ := hgroup g hg
        rw [(mem_entries_groups.mp (hgperm.mem_iff.mp he)).1]
        exact (List.filter_sublist.map Prod.fst).nodup
          ((hlperm.map Prod.fst).nodup_iff.mpr depths.nodup)
      · exact lt_irrefl _ (hlt a ha a hb)
    · change h ∈ result.flatten ↔ h ∈ dag.hashes
      rw [mem_hashes, List.mem_flatten]
      constructor
      · rintro ⟨g, hg, hh⟩
        obtain ⟨e, he, rfl, -⟩ := hgroup g hg
        exact (((hentry e he).2 h).mp hh).2
      · intro hpresent
        have hlisted : h ∈ ofDepth l (depth h) := mem_ofDepth.mpr (hmem.mpr ⟨rfl, hpresent⟩)
        have he : (depth h, ofDepth l (depth h)) ∈ entries :=
          hgperm.mem_iff.mpr (mem_entries_groups.mpr ⟨rfl, List.ne_nil_of_mem hlisted⟩)
        exact ⟨_, hrperm.mem_iff.mpr (List.mem_map.mpr ⟨_, he, rfl⟩), hlisted⟩
  · intro hnil
    obtain ⟨e, he, heq, -⟩ := hgroup [] hnil
    exact (hentry e he).1 heq
  · intro g hg a ha b hb
    rw [hdepth g hg a ha, hdepth g hg b hb]
  · exact hsorted

/-- In every DAG that is built by inserts, with enough fuel and in whatever order its
maps are iterated, the depths are computed without a panic and the groups are layers. -/
theorem parallelizableGroups_layered (txs : List Transaction) (order : HashOrder)
    (hfuel : txs.length ≤ fuel) :
    ∃ groups, (txs.foldl insertStep new).parallelizableGroups order fuel = .ok groups ∧
      (txs.foldl insertStep new).Layered groups := by
  obtain ⟨depth, hgraded⟩ := exists_graded_foldl graded_new txs
  rw [zero_add] at hgraded
  generalize txs.foldl insertStep new = dag at hgraded
  generalize hnodes : order.nodes (dag.nodes.entries.map fun e => (e.1, e.2)) = nodes
  have hperm : nodes.Perm (dag.nodes.entries.map fun e => (e.1, e.2)) := hnodes ▸ order.nodes_perm _
  have hmem {h : TxHash} {node : DagNode} : (h, node) ∈ nodes ↔ dag.get h = some node := by
    rw [hperm.mem_iff, get, ← Option.mem_def, AList.mem_lookup_iff, List.mem_map]
    constructor
    · rintro ⟨e, he, heq⟩
      cases heq
      exact he
    · exact fun he => ⟨_, he, rfl⟩
  have hempty : dag.Known depth .empty := by
    intro h d hd
    cases hd
  obtain ⟨depths, hok, hknown, hall, -⟩ :=
    computeDepths_spec hgraded hfuel (fun p hp => hmem.mp hp) hempty
  refine ⟨_, ?_, hgraded.layered_groups hknown (fun h hkey => ?_) order⟩
  · rw [parallelizableGroups, hnodes, hok, ok_bind]
  · obtain ⟨node, hget⟩ := Option.isSome_iff_exists.mp hkey
    exact hall (h, node) (hmem.mpr hget)

/-- A transaction and its child. -/
theorem layered_pair :
    ∃ groups, ([sampleTx 1 0 [], sampleTx 2 1 [Vector.replicate 32 1]].foldl insertStep
        new).parallelizableGroups .inserted 2 = .ok groups ∧
      ([sampleTx 1 0 [], sampleTx 2 1 [Vector.replicate 32 1]].foldl insertStep new).Layered
        groups :=
  parallelizableGroups_layered _ .inserted (by decide)

end Dag

end Oikos.Koinon
