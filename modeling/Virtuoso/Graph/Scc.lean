import Virtuoso.Graph.Adjacent
import Virtuoso.Lib.Dfs

/-!
# Strongly connected components

`graph_algo_scc` is Kosaraju's algorithm with an explicit stack.  Each node keeps how
many of its neighbours were looked at; a walk that can jump resumes there, another one
counts its neighbours again.  The first pass records the order in which the nodes
finish; the second pass takes them in reverse order and collects, along the incoming
edges, what belongs to the same component.
-/

namespace Virtuoso.Graph

open Lib

/-- `graph_scc_result_t`; a component id of `UINT64_MAX` is `none`. -/
structure SccResult where
  componentIds : ℕ → Option ℕ
  nodeCount : ℕ
  componentCount : ℕ
  largestComponentSize : ℕ

/-- The loop over the neighbours of the top of the stack, with the neighbours that are
still to come, `edge_count` and the `edge_index` of the top: the new `edge_index` and the
unvisited neighbour at which the loop stops.  The counters are `uint32_t`. -/
def sccScan (visited : ℕ → Bool) (skip : ℕ) : List (Option ℕ) → ℕ → ℕ → ℕ × Option ℕ
  | [], _, edgeIndex => (edgeIndex, none)
  | neighborIdx :: rest, edgeCount, edgeIndex =>
    let next := (edgeCount + 1) % 2 ^ 32
    if edgeCount < skip then sccScan visited skip rest next edgeIndex
    else
      match neighborIdx with
      | none => sccScan visited skip rest next next
      | some n => if visited n then sccScan visited skip rest next next else (next, some n)

/-- The scan from where it was left: a jump, or the count from the start. -/
def sccResume (ctx : NeighborCtx) (visited : ℕ → Bool) (skip : ℕ) : ℕ × Option ℕ :=
  match neighborSkip ctx skip with
  | some ctx' => sccScan visited skip (neighborYields ctx'.calls ctx') skip skip
  | none => sccScan visited skip (neighborYields ctx.calls ctx) 0 skip

/-- The arrays of a pass; `stack` has its top first, `extra` is what the pass records. -/
structure DfsState (σ : Type) where
  visited : ℕ → Bool
  edgeIndex : ℕ → ℕ
  stack : List ℕ
  extra : σ

/-- What a pass does: the iterator over a node, what is recorded for a node that is
marked visited and for one that is finished. -/
structure DfsPass (σ : Type) where
  ctx : ℕ → NeighborCtx
  onMark : σ → ℕ → σ
  onFinish : σ → ℕ → σ

namespace DfsPass

variable {σ : Type} (p : DfsPass σ)

def mark (current : ℕ) (st : DfsState σ) : DfsState σ :=
  if st.visited current then st
  else
    { st with
      visited := Function.update st.visited current true
      extra := p.onMark st.extra current }

/-- One round of `while (stack_top > 0)`; `none` if the stack has no slot left. -/
def round (slots current : ℕ) (rest : List ℕ) (st : DfsState σ) : Option (DfsState σ) :=
  let st := p.mark current st
  let r := sccResume (p.ctx current) st.visited (st.edgeIndex current)
  let st := { st with edgeIndex := Function.update st.edgeIndex current r.1 }
  match r.2 with
  | some n =>
    if st.stack.length < slots then some { st with stack := n :: current :: rest } else none
  | none => some { st with stack := rest, extra := p.onFinish st.extra current }

/-- `while (stack_top > 0)`; `none` also if `fuel` rounds are not enough. -/
def loop (slots : ℕ) : ℕ → DfsState σ → Option (DfsState σ)
  | fuel, st =>
    match st.stack with
    | [] => some st
    | current :: rest =>
      match fuel with
      | 0 => none
      | fuel + 1 => (p.round slots current rest st).bind (loop slots fuel)

/-- The search from `start`.  A round pushes or finishes a node, so there are at most two
rounds a node. -/
def search (slots start : ℕ) (st : DfsState σ) : Option (DfsState σ) :=
  p.loop slots (2 * slots) { st with stack := [start] }

end DfsPass

/-- The first pass: the order in which the nodes finish. -/
def sccFirstPass (ctx : ℕ → NeighborCtx) : DfsPass (List ℕ) where
  ctx := ctx
  onMark finishOrder _ := finishOrder
  onFinish finishOrder current := finishOrder ++ [current]

/-- The second pass: the component ids and the size of the component. -/
def sccSecondPass (ctx : ℕ → NeighborCtx) (componentCount : ℕ) :
    DfsPass ((ℕ → Option ℕ) × ℕ) where
  ctx := ctx
  onMark r current := (Function.update r.1 current (some componentCount), r.2 + 1)
  onFinish r _ := r

/-- `for (start = 0; start < node_count; start++)`. -/
def sccFinishOrder (ctx : ℕ → NeighborCtx) (slots : ℕ) (starts : List ℕ) (st : DfsState (List ℕ)) :
    Option (DfsState (List ℕ)) :=
  starts.foldlM
    (fun st start => if st.visited start then some st else (sccFirstPass ctx).search slots start st)
    st

/-- What the second pass has built. -/
structure SccState where
  visited : ℕ → Bool
  edgeIndex : ℕ → ℕ
  componentIds : ℕ → Option ℕ
  componentCount : ℕ
  largestSize : ℕ

/-- One round of the loop over the finish order. -/
def sccCollect (ctx : ℕ → NeighborCtx) (slots : ℕ) (st : SccState) (startIdx : ℕ) :
    Option SccState :=
  if st.visited startIdx then some st
  else
    ((sccSecondPass ctx st.componentCount).search slots startIdx
      ⟨st.visited, st.edgeIndex, [], (st.componentIds, 0)⟩).map fun r =>
        { visited := r.visited
          edgeIndex := r.edgeIndex
          componentIds := r.extra.1
          componentCount := st.componentCount + 1
          largestSize := if st.largestSize < r.extra.2 then r.extra.2 else st.largestSize }

/-- `graph_algo_scc`: the error code and what was written to `result`; `none` if the
stack would need more than its `V` slots. -/
def graphAlgoScc (indexWalk : Bool) (s : Snapshot) (filter : Option PredFilter)
    (result : SccResult) : Option (GraphError × SccResult) :=
  let v := s.nodeCount
  if v = 0 then some (.ok, { result with nodeCount := 0, componentCount := 0 })
  else do
    let nodeCount := min s.nodeMap.length v
    let first ← sccFinishOrder (fun i => neighborInitAt indexWalk s i .outgoing filter) v
      (List.range nodeCount) ⟨fun _ => false, fun _ => 0, [], []⟩
    let second ← first.extra.reverse.foldlM
      (sccCollect (fun i => neighborInitAt indexWalk s i .incoming filter) v)
      ⟨fun _ => false, fun _ => 0, fun _ => none, 0, 0⟩
    some (.ok,
      { componentIds := second.componentIds
        nodeCount
        componentCount := second.componentCount
        largestComponentSize := second.largestSize })

/-! ## The scan of the neighbours -/

/-- What a scan that looked at `skip` neighbours before finds. -/
structure Scanned (visited : ℕ → Bool) (skip : ℕ) (ns : List ℕ) (r : ℕ × Option ℕ) : Prop where
  le : r.1 ≤ ns.length
  /-- Everything it passed is visited. -/
  passed : ∀ i, skip ≤ i → i < r.1 → ∀ w, ns[i]? = some w → visited w = true ∨ r.2 = some w
  found : ∀ w, r.2 = some w → visited w = false ∧ w ∈ ns
  all : r.2 = none → r.1 = ns.length

variable {visited : ℕ → Bool} {ns : List ℕ} {skip : ℕ}

/-- The walk that counts gets to where the walk that jumps starts. -/
theorem sccScan_counting {edgeIndex edgeCount : ℕ} (hskip : skip < 2 ^ 32) (hle : edgeCount ≤ skip)
    (hlen : skip ≤ edgeCount + ns.length) :
    sccScan visited skip (ns.map some) edgeCount edgeIndex =
      sccScan visited skip ((ns.drop (skip - edgeCount)).map some) skip edgeIndex := by
  induction ns generalizing edgeCount with
  | nil =>
    obtain rfl : skip = edgeCount := Nat.le_antisymm hlen hle
    simp
  | cons n ns ih =>
    rcases hle.lt_or_eq with hlt | rfl
    · rw [List.length_cons] at hlen
      have hstep : edgeCount + 1 ≤ skip := hlt
      rw [List.map_cons, sccScan, if_pos hlt, Nat.mod_eq_of_lt (by omega),
        ih hstep (by omega), show skip - edgeCount = skip - (edgeCount + 1) + 1 by omega,
        List.drop_succ_cons]
    · rw [Nat.sub_self, List.drop_zero]

theorem sccScan_spec {all : List ℕ} {edgeCount edgeIndex : ℕ} (hlen : all.length < 2 ^ 32)
    (hskip : skip ≤ edgeCount) (hns : all.drop edgeCount = ns) (hcount : edgeCount ≤ all.length)
    (hindex : edgeIndex = edgeCount)
    (hpassed : ∀ i, skip ≤ i → i < edgeCount → ∀ w, all[i]? = some w → visited w = true) :
    Scanned visited skip all (sccScan visited skip (ns.map some) edgeCount edgeIndex) := by
  subst hindex
  induction ns generalizing edgeIndex with
  | nil =>
    have hle := List.drop_eq_nil_iff.1 hns
    refine ⟨hcount, fun i h₁ h₂ w hw => .inl (hpassed i h₁ h₂ w hw), ?_, fun _ => ?_⟩
    · intro w hw
      cases hw
    · exact hcount.antisymm hle
  | cons n ns ih =>
    have hget : all[edgeIndex]? = some n := by
      rw [← List.head?_drop, hns, List.head?_cons]
    have hlt := (List.getElem?_eq_some_iff.1 hget).1
    have hdrop : all.drop (edgeIndex + 1) = ns := by
      rw [← List.tail_drop, hns, List.tail_cons]
    rw [List.map_cons, sccScan, if_neg (not_lt.2 hskip), Nat.mod_eq_of_lt (by omega)]
    change Scanned visited skip all
      (if visited n = true then
        sccScan visited skip (ns.map some) (edgeIndex + 1) (edgeIndex + 1)
      else (edgeIndex + 1, some n))
    split_ifs with hvis
    · refine ih (Nat.le_succ_of_le hskip) hdrop hlt fun i h₁ h₂ w hw => ?_
      rcases Nat.lt_succ_iff_lt_or_eq.1 h₂ with h₂ | rfl
      · exact hpassed i h₁ h₂ w hw
      · rw [hget] at hw
        rwa [← Option.some.inj hw]
    · refine ⟨hlt, fun i h₁ h₂ w hw => ?_, fun w hw => ?_, fun h => by cases h⟩
      · rcases Nat.lt_succ_iff_lt_or_eq.1 h₂ with h₂ | rfl
        · exact .inl (hpassed i h₁ h₂ w hw)
        · exact .inr (hget ▸ hw)
      · cases hw
        exact ⟨by simpa using hvis, List.mem_of_getElem? hget⟩

/-- Both ways of resuming scan the neighbours that were not looked at. -/
theorem sccResume_spec {ctx : NeighborCtx} (hrest : ctx.rest = ns.map some)
    (hbase : ctx.baseIdx = 0) (hinv : ctx.invIdx = 0) (hlen : ns.length < 2 ^ 32)
    (hskip : skip ≤ ns.length) : Scanned visited skip ns (sccResume ctx visited skip) := by
  have hspec : Scanned visited skip ns
      (sccScan visited skip ((ns.drop skip).map some) skip skip) :=
    sccScan_spec hlen le_rfl rfl hskip rfl fun i h₁ h₂ => absurd h₁ (not_le.2 h₂)
  unfold sccResume
  cases hjump : neighborSkip ctx skip with
  | some ctx' =>
    have hrest' := rest_neighborSkip hbase hinv hjump
    rw [hrest, ← List.map_drop] at hrest'
    simpa only [neighborYields_eq, hrest'] using hspec
  | none =>
    have hcount : sccScan visited skip (ns.map some) 0 skip =
        sccScan visited skip ((ns.drop (skip - 0)).map some) skip skip :=
      sccScan_counting (hskip.trans_lt hlen) (Nat.zero_le _) (by simpa using hskip)
    rw [Nat.sub_zero] at hcount
    simpa only [neighborYields_eq, hrest, hcount] using hspec

end Virtuoso.Graph
