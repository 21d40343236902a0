import Mathlib.Logic.Function.Basic
import Mathlib.Tactic.Common

namespace Radix
set_option autoImplicit true

variable {Node Index Entry : Type} {next : Entry → Option Node}
  {mem mem' : Node → Index → Entry}

/-- The node a path of indices leads to; `next` reads the node an entry points to, if any. -/
def follow (next : Entry → Option Node) (mem : Node → Index → Entry) :
    Node → List Index → Option Node
  | t, [] => some t
  | t, i :: p => (next (mem t i)).bind fun u => follow next mem u p

theorem follow_append : follow next mem t (p ++ q) =
    (follow next mem t p).bind fun u => follow next mem u q := by
  induction p generalizing t with
  | nil => rfl
  | cons i p ih =>
    rw [List.cons_append, follow, follow, Option.bind_assoc]
    congr 1
    funext u
    exact ih

theorem follow_step (h : follow next mem t p = some u) :
    follow next mem t (p ++ [i]) = next (mem u i) := by
  rw [follow_append, h]
  change (next (mem u i)).bind _ = _
  cases next (mem u i) with
  | none => rfl
  | some c => rfl

theorem follow_congr (h : ∀ p i r u, q = p ++ i :: r → follow next mem t p = some u →
    mem' u i = mem u i) : follow next mem' t q = follow next mem t q := by
  induction q generalizing t with
  | nil => rfl
  | cons i q ih =>
    have he : mem' t i = mem t i := h [] i q t rfl rfl
    rw [follow, follow, he]
    cases hc : next (mem t i) with
    | none => rfl
    | some c =>
      apply ih
      intro p j r u hq hu
      apply h (i :: p) j r u
      · rw [hq, List.cons_append]
      · rw [follow, hc]
        exact hu

/-- Down to `depth` each node is reached by one path only. -/
def Separated (next : Entry → Option Node) (mem : Node → Index → Entry) (root : Node)
    (depth : Nat) : Prop :=
  ∀ p q t, p.length ≤ depth → q.length ≤ depth → follow next mem root p = some t →
    follow next mem root q = some t → p = q

def IsNode (next : Entry → Option Node) (mem : Node → Index → Entry) (root : Node)
    (depth : Nat) (t : Node) : Prop :=
  ∃ p, p.length ≤ depth ∧ follow next mem root p = some t

theorem IsNode.root : IsNode next mem t depth t := ⟨[], Nat.zero_le _, rfl⟩

theorem Separated.parent (hs : Separated next mem root depth) (hp : p.length < depth)
    (ht : follow next mem root p = some t) (hc : next (mem t i) = some c)
    (hq : q.length < depth) (hu : follow next mem root q = some u)
    (hd : next (mem u j) = some c) : q = p ∧ u = t ∧ j = i := by
  have hpi := (follow_step ht).trans hc
  have hqj := (follow_step hu).trans hd
  have he := hs (q ++ [j]) (p ++ [i]) c (by simp; omega) (by simp; omega) hqj hpi
  obtain ⟨rfl, hij⟩ := List.append_inj' he rfl
  rw [ht] at hu
  cases hu
  cases hij
  exact ⟨rfl, rfl, rfl⟩

theorem follow_through (ht : follow next mem root p = some t) :
    follow next mem root (p ++ i :: r) = (next (mem t i)).bind fun u => follow next mem u r := by
  rw [follow_append, ht]
  rfl

theorem Separated.of_follow (hs : Separated next mem root depth)
    (h : ∀ q t, q.length ≤ depth → follow next mem' root q = some t →
      follow next mem root q = some t) : Separated next mem' root depth := by
  intro p q t hp hq hpt hqt
  exact hs p q t hp hq (h p t hp hpt) (h q t hq hqt)

theorem follow_empty (h : ∀ i, next (mem t i) = none) (hq : follow next mem t q = some u) :
    q = [] ∧ u = t := by
  cases q with
  | nil => exact ⟨rfl, (Option.some.inj hq).symm⟩
  | cons i q =>
    rw [follow, h] at hq
    cases hq

section Links
variable [DecidableEq Index]

theorem Separated.of_link (hs : Separated next mem root depth)
    (hf : ¬IsNode next mem root depth f)
    (h : ∀ q, q.length ≤ depth → follow next mem' root q =
      if q = r then some f else follow next mem root q) : Separated next mem' root depth := by
  intro p q t hp hq hpt hqt
  rw [h p hp] at hpt
  rw [h q hq] at hqt
  split at hpt
  · next hpr =>
    cases hpt
    split at hqt
    · next hqr => rw [hpr, hqr]
    · exact (hf ⟨q, hq, hqt⟩).elim
  · split at hqt
    · cases hqt
      exact (hf ⟨p, hp, hpt⟩).elim
    · exact hs p q t hp hq hpt hqt

end Links

section Updates
variable [DecidableEq Node] {root t c f : Node} {g : Index → Entry} {depth : Nat}

theorem follow_update_fresh (hf : ¬IsNode next mem root depth f) (hq : q.length ≤ depth + 1) :
    follow next (Function.update mem f g) root q = follow next mem root q := by
  apply follow_congr
  intro p j r u hsplit hu
  have hne : u ≠ f := by
    rintro rfl
    apply hf
    refine ⟨p, ?_, hu⟩
    rw [hsplit, List.length_append, List.length_cons] at hq
    omega
  rw [Function.update_of_ne hne]

variable [DecidableEq Index] {i : Index} {e : Entry}

/-- The memory with entry `i` of node `t` replaced. -/
def setEntry (mem : Node → Index → Entry) (t : Node) (i : Index) (e : Entry) :
    Node → Index → Entry :=
  Function.update mem t (Function.update (mem t) i e)

@[simp] theorem setEntry_self : setEntry mem t i e t i = e := by
  simp only [setEntry, Function.update_self]

theorem setEntry_of_ne (h : u ≠ t ∨ j ≠ i) : setEntry mem t i e u j = mem u j := by
  rw [setEntry]
  by_cases hu : u = t
  · subst hu
    rw [Function.update_self, Function.update_of_ne (h.resolve_left (not_not_intro rfl))]
  · rw [Function.update_of_ne hu]

theorem setEntry_node (h : u ≠ t) : setEntry mem t i e u = mem u := Function.update_of_ne h ..

theorem update_setEntry (h : f ≠ t) :
    Function.update (setEntry mem t i e) f g = setEntry (Function.update mem f g) t i e := by
  rw [setEntry, setEntry, Function.update_comm h, Function.update_of_ne h.symm]

theorem Separated.follow_setEntry (hs : Separated next mem root depth)
    (ht : follow next mem root p = some t) (hp : p.length ≤ depth) (hq : q.length ≤ depth + 1)
    (hn : ∀ r, q ≠ p ++ i :: r) :
    follow next (setEntry mem t i e) root q = follow next mem root q := by
  apply follow_congr
  intro p' j r u hsplit hu
  apply setEntry_of_ne
  by_contra hsame
  rw [not_or, not_not, not_not] at hsame
  obtain ⟨rfl, rfl⟩ := hsame
  have hlen : p'.length ≤ depth := by
    rw [hsplit, List.length_append, List.length_cons] at hq
    omega
  obtain rfl := hs p' p u hlen hp hu ht
  exact hn r hsplit

theorem Separated.follow_setEntry_through (hs : Separated next mem root depth)
    (ht : follow next mem root p = some t) (hp : p.length ≤ depth) :
    follow next (setEntry mem t i e) root (p ++ i :: r) =
      (next e).bind fun u => follow next (setEntry mem t i e) u r := by
  have hpath : follow next (setEntry mem t i e) root p = some t := by
    rw [hs.follow_setEntry ht hp (Nat.le_succ_of_le hp), ht]
    intro r' hr'
    have hlen := congrArg List.length hr'
    rw [List.length_append, List.length_cons] at hlen
    omega
  rw [follow_through hpath, setEntry_self]

theorem Separated.follow_leaf (hs : Separated next mem root depth)
    (ht : follow next mem root p = some t) (hp : p.length = depth) (hq : q.length ≤ depth) :
    follow next (setEntry mem t i e) root q = follow next mem root q := by
  apply hs.follow_setEntry ht (Nat.le_of_eq hp) (Nat.le_succ_of_le hq)
  intro r hr
  rw [hr, List.length_append, List.length_cons] at hq
  omega

theorem Separated.follow_unlink (hs : Separated next mem root depth)
    (ht : follow next mem root p = some t) (hp : p.length < depth)
    (hc : next (mem t i) = some c) (hdead : ∀ j, next (mem c j) = none) (he : next e = none)
    (hq : q.length ≤ depth) :
    follow next (setEntry mem t i e) root q =
      if q = p ++ [i] then none else follow next mem root q := by
  by_cases hthrough : ∃ r, q = p ++ i :: r
  · obtain ⟨r, rfl⟩ := hthrough
    rw [hs.follow_setEntry_through ht (Nat.le_of_lt hp), he, follow_through ht, hc]
    cases r with
    | nil => rw [if_pos rfl]; rfl
    | cons j r =>
      rw [if_neg (by simp)]
      change none = (next (mem c j)).bind _
      rw [hdead]
      rfl
  · rw [not_exists] at hthrough
    rw [if_neg (hthrough []), hs.follow_setEntry ht (Nat.le_of_lt hp) (Nat.le_succ_of_le hq)
      hthrough]

/-- Hanging an empty new node into a free entry adds the one path to it. -/
theorem Separated.follow_link (hs : Separated next mem root depth)
    (ht : follow next mem root p = some t) (hp : p.length < depth)
    (hfree : next (mem t i) = none) (he : next e = some f)
    (hf : ¬IsNode next mem root depth f) (hg : ∀ j, next (g j) = none)
    (hq : q.length ≤ depth) :
    follow next (Function.update (setEntry mem t i e) f g) root q =
      if q = p ++ [i] then some f else follow next mem root q := by
  have hft : f ≠ t := by
    rintro rfl
    exact hf ⟨p, Nat.le_of_lt hp, ht⟩
  have hkeep : ∀ q, q.length ≤ depth →
      follow next (Function.update mem f g) root q = follow next mem root q :=
    fun q hq => follow_update_fresh hf (Nat.le_succ_of_le hq)
  have hs' : Separated next (Function.update mem f g) root depth :=
    hs.of_follow fun q u hq hu => (hkeep q hq) ▸ hu
  have ht' := (hkeep p (Nat.le_of_lt hp)).trans ht
  rw [update_setEntry hft]
  by_cases hthrough : ∃ r, q = p ++ i :: r
  · obtain ⟨r, rfl⟩ := hthrough
    rw [hs'.follow_setEntry_through ht' (Nat.le_of_lt hp), he, follow_through ht, hfree]
    cases r with
    | nil => rw [if_pos rfl]; rfl
    | cons j r =>
      rw [if_neg (by simp)]
      change (next (setEntry (Function.update mem f g) t i e f j)).bind _ = none
      rw [setEntry_node hft, Function.update_self, hg]
      rfl
  · rw [not_exists] at hthrough
    rw [if_neg (hthrough []), hs'.follow_setEntry ht' (Nat.le_of_lt hp) (Nat.le_succ_of_le hq)
      hthrough, hkeep q hq]

end Updates

end Radix
