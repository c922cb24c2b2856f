import Mathlib.Data.List.Basic

/-!
Hash indexes with chained nodes.

Each bucket has a chain of nodes that are linked by their numbers; a new node
becomes the head of its bucket. The chain of a bucket ends at the number `stop`,
which is above all nodes, and a link goes to an earlier node, so a walk along a
chain sees the entries of its bucket, the latest first.
-/

namespace HashIndex

open Function List

structure Node where
  entry : ℕ
  next : ℕ
  deriving DecidableEq

structure Index where
  bucket : ℕ → ℕ
  nodes : List Node

/-- An index without nodes. -/
def empty (stop : ℕ) : Index := ⟨fun _ => stop, []⟩

def Index.insert (ix : Index) (b entry : ℕ) : Index where
  bucket := update ix.bucket b ix.nodes.length
  nodes := ix.nodes ++ [⟨entry, ix.bucket b⟩]

/-- Follow the links from node `ni` on until an entry is hit, the walk is cut at an entry or the
chain ends. -/
def walk (stop : ℕ) (cut hit : ℕ → Bool) (ix : Index) : ℕ → ℕ → Option ℕ
  | 0, _ => none
  | fuel + 1, ni =>
    if ni = stop then none
    else match ix.nodes[ni]? with
      | none => none
      | some node =>
        if cut node.entry then none
        else if hit node.entry then some node.entry
        else walk stop cut hit ix fuel node.next

/-- The entries on the chain that starts at node `ni`. -/
inductive Chain (stop : ℕ) (nodes : List Node) : ℕ → List ℕ → Prop
  | done : Chain stop nodes stop []
  | link {ni : ℕ} {node : Node} {l : List ℕ} (hnode : nodes[ni]? = some node)
      (hnext : node.next = stop ∨ node.next < ni) (h : Chain stop nodes node.next l) :
      Chain stop nodes ni (node.entry :: l)

/-- The index has in every bucket the entries of `content`. -/
def Holds (stop : ℕ) (ix : Index) (content : ℕ → List ℕ) : Prop :=
  ix.nodes.length ≤ stop ∧ ∀ b, (ix.bucket b = stop ∨ ix.bucket b < ix.nodes.length) ∧
    Chain stop ix.nodes (ix.bucket b) (content b)

variable {stop : ℕ} {ix : Index} {content : ℕ → List ℕ}

theorem holds_empty (stop : ℕ) : Holds stop (empty stop) fun _ => [] :=
  ⟨Nat.zero_le _, fun _ => ⟨.inl rfl, .done⟩⟩

theorem Chain.append {nodes more : List Node} {ni : ℕ} {l : List ℕ} (h : Chain stop nodes ni l) :
    Chain stop (nodes ++ more) ni l := by
  induction h with
  | done => exact .done
  | link hnode hnext _ ih =>
    refine .link ?_ hnext ih
    rw [getElem?_append_left (List.getElem?_eq_some_iff.mp hnode).1]
    exact hnode

theorem Holds.insert (h : Holds stop ix content) (hroom : ix.nodes.length < stop) (b entry : ℕ) :
    Holds stop (ix.insert b entry) (update content b (entry :: content b)) := by
  have hlen : (ix.insert b entry).nodes.length = ix.nodes.length + 1 := by
    simp [Index.insert]
  refine ⟨by omega, fun b' => ?_⟩
  rcases eq_or_ne b' b with rfl | hne
  · simp only [Index.insert, update_self, length_append, length_singleton]
    refine ⟨.inr (by omega), ?_⟩
    have hnode : (ix.nodes ++ [⟨entry, ix.bucket b'⟩])[ix.nodes.length]? =
        some ⟨entry, ix.bucket b'⟩ := by simp
    exact .link hnode (h.2 b').1 (h.2 b').2.append
  · simp only [Index.insert, update_of_ne hne, length_append,
      length_singleton]
    exact ⟨(h.2 b').1.imp_right (by omega), (h.2 b').2.append⟩

theorem Chain.walk_eq {ni fuel : ℕ} {l : List ℕ} {cut hit : ℕ → Bool}
    (h : Chain stop ix.nodes ni l) (hfuel : ni = stop ∧ 0 < fuel ∨ ni + 1 < fuel)
    (hstop : ix.nodes.length ≤ stop) (hcut : ∀ e ∈ l, cut e = false) :
    walk stop cut hit ix fuel ni = l.find? hit := by
  induction h generalizing fuel with
  | done =>
    cases fuel with
    | zero => omega
    | succ fuel => rw [walk, if_pos rfl, find?_nil]
  | @link ni node l hnode hnext hl ih =>
    have hlt := (List.getElem?_eq_some_iff.mp hnode).1
    cases fuel with
    | zero => omega
    | succ fuel =>
      have hcut' := fun e he => hcut e (mem_cons_of_mem _ he)
      rw [walk, if_neg (by omega), hnode]
      dsimp only
      rw [hcut _ mem_cons_self, if_neg (by simp), find?_cons]
      cases hit node.entry with
      | true => rfl
      | false => exact ih (by omega) hcut'

theorem Holds.walk_eq (h : Holds stop ix content) (b : ℕ) {cut hit : ℕ → Bool}
    (hcut : ∀ e ∈ content b, cut e = false) :
    walk stop cut hit ix (ix.nodes.length + 1) (ix.bucket b) = (content b).find? hit := by
  obtain ⟨hhead, hchain⟩ := h.2 b
  exact hchain.walk_eq (by omega) h.1 hcut

end HashIndex
