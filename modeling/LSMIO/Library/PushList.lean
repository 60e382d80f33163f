import Mathlib

/-! A linked list in memory that any number of threads push to at its head, by compare-and-swap in
a loop, and that is never unlinked: what the list holds, and what stays of a chain of nodes that
somebody walks meanwhile. -/

variable {θ α : Type*}

/-- How far a thread has come with the node at an address. -/
inductive Pushing
  | idle
  | allocated (address : Nat)
  | loaded (address : Nat)
  deriving DecidableEq

/-- The node that a thread has and that nobody else can reach. -/
def Pushing.node : Pushing → Option Nat
  | .idle => none
  | .allocated address | .loaded address => some address

/-- The memory, with the value and the link of the node at each address, the head, and the threads. -/
structure PushList (θ α : Type*) where
  nodes : List (α × Option Nat)
  head : Option Nat
  pushing : θ → Pushing

/-- `push` is a compare-and-swap that succeeds, and `retry` one that fails, also without a reason. -/
inductive PushEvent (θ α : Type*)
  | new (t : θ) (value : α)
  | load (t : θ)
  | push (t : θ)
  | retry (t : θ)

/-- The chain of nodes from a pointer, with their addresses. -/
inductive Linked (nodes : List (α × Option Nat)) : Option Nat → List (Nat × α) → Prop
  | nil : Linked nodes none []
  | cons {address : Nat} {value : α} {next : Option Nat} {behind : List (Nat × α)}
      (here : nodes[address]? = some (value, next)) (rest : Linked nodes next behind) :
      Linked nodes (some address) ((address, value) :: behind)

namespace Linked

variable {nodes : List (α × Option Nat)} {cursor : Option Nat} {chain : List (Nat × α)}

theorem mem_lt (linked : Linked nodes cursor chain) : ∀ node ∈ chain, node.1 < nodes.length := by
  induction linked with
  | nil => simp
  | cons here _ ih =>
    intro node member
    rcases List.mem_cons.mp member with rfl | behind
    · exact (List.getElem?_eq_some_iff.mp here).1
    · exact ih node behind

theorem mem_nodes (linked : Linked nodes cursor chain) :
    ∀ value ∈ chain.map Prod.snd, ∃ node ∈ nodes, node.1 = value := by
  induction linked with
  | nil => simp
  | cons here _ ih =>
    intro value member
    rcases List.mem_cons.mp member with rfl | behind
    · exact ⟨_, List.mem_of_getElem? here, rfl⟩
    · exact ih value behind

/-- A chain lasts as long as its own nodes do. -/
theorem frame {nodes' : List (α × Option Nat)} (linked : Linked nodes cursor chain)
    (kept : ∀ node ∈ chain, nodes'[node.1]? = nodes[node.1]?) : Linked nodes' cursor chain := by
  induction linked with
  | nil => exact .nil
  | cons here _ ih =>
    refine .cons ?_ (ih fun node member => kept node (List.mem_cons_of_mem _ member))
    rw [kept _ (List.mem_cons_self ..), here]

end Linked

namespace PushList

/-- The walk from a pointer, over at most a number of nodes. -/
def walk (nodes : List (α × Option Nat)) : Nat → Option Nat → List α
  | 0, _ => []
  | _, none => []
  | fuel + 1, some address => match nodes[address]? with
    | none => []
    | some node => node.1 :: walk nodes fuel node.2

/-- What the list holds, newest first. -/
def values (s : PushList θ α) : List α := walk s.nodes s.nodes.length s.head

theorem walk_eq {nodes : List (α × Option Nat)} {cursor : Option Nat} {chain : List (Nat × α)}
    (linked : Linked nodes cursor chain) {fuel : Nat} (enough : chain.length ≤ fuel) :
    walk nodes fuel cursor = chain.map Prod.snd := by
  induction linked generalizing fuel with
  | nil => cases fuel <;> rfl
  | cons here _ ih =>
    cases fuel with
    | zero => simp at enough
    | succ fuel =>
      have enough' := Nat.le_of_succ_le_succ enough
      simp only [walk, here, ih enough', List.map_cons]

/-- The list of the nodes from the oldest on, built by one thread. -/
def ofValues : List α → List (α × Option Nat) × Option Nat
  | [] => ([], none)
  | value :: older =>
    let (nodes, head) := ofValues older
    (nodes ++ [(value, head)], some nodes.length)

/-- The list that nobody is pushing to yet. -/
def start (older : List α) : PushList θ α := ⟨(ofValues older).1, (ofValues older).2, fun _ => .idle⟩

def setNext (s : PushList θ α) (address : Nat) (next : Option Nat) : List (α × Option Nat) :=
  s.nodes.modify address fun node => (node.1, next)

def step [DecidableEq θ] (s : PushList θ α) : PushEvent θ α → Option (PushList θ α)
  | .new t value =>
    if s.pushing t = .idle then
      some { s with nodes := s.nodes ++ [(value, none)]
                    pushing := Function.update s.pushing t (.allocated s.nodes.length) }
    else none
  | .load t => match s.pushing t with
    | .allocated address =>
      some { s with nodes := s.setNext address s.head, pushing := Function.update s.pushing t (.loaded address) }
    | _ => none
  | .push t => match s.pushing t with
    | .loaded address => match s.nodes[address]? with
      | some (_, next) =>
        if s.head = next then some
          { s with head := some address, pushing := Function.update s.pushing t .idle } else none
      | none => none
    | _ => none
  | .retry t => match s.pushing t with
    | .loaded address => some { s with nodes := s.setNext address s.head }
    | _ => none

/-- What a step brings to the front of the list. -/
def pushed (s : PushList θ α) : PushEvent θ α → Option α
  | .push t => (s.pushing t).node.bind fun address => s.nodes[address]?.map Prod.fst
  | _ => none

/-- The list is a chain from the head, and the nodes under way are outside of it and no two of them the same. -/
structure Sound (s : PushList θ α) (chain : List (Nat × α)) : Prop where
  linked : Linked s.nodes s.head chain
  distinct : (chain.map Prod.fst).Nodup
  own : ∀ t address, (s.pushing t).node = some address → address < s.nodes.length ∧ address ∉ chain.map Prod.fst
  apart : ∀ t t' address, (s.pushing t).node = some address → (s.pushing t').node = some address → t = t'

variable {s s' : PushList θ α} {chain : List (Nat × α)} {e : PushEvent θ α}

theorem Sound.values_eq (sound : Sound s chain) : s.values = chain.map Prod.snd := by
  refine walk_eq sound.linked ?_
  have below : chain.map Prod.fst ⊆ List.range s.nodes.length := by
    intro address member
    obtain ⟨node, inChain, rfl⟩ := List.mem_map.mp member
    exact List.mem_range.mpr (sound.linked.mem_lt node inChain)
  have few := (sound.distinct.subperm below).length_le
  simpa using few

theorem ofValues_linked (older : List α) : ∃ chain, Linked (ofValues older).1 (ofValues older).2 chain ∧
    (chain.map Prod.fst).Nodup ∧ chain.map Prod.snd = older := by
  induction older with
  | nil => exact ⟨[], .nil, by simp, rfl⟩
  | cons value older ih =>
    obtain ⟨chain, linked, distinct, values⟩ := ih
    have below := linked.mem_lt
    refine ⟨((ofValues older).1.length, value) :: chain,
      .cons (by simp [ofValues]) (linked.frame fun node member => ?_), ?_, ?_⟩
    · exact List.getElem?_append_left (below node member)
    · rw [List.map_cons, List.nodup_cons]
      refine ⟨fun member => ?_, distinct⟩
      obtain ⟨node, inChain, same⟩ := List.mem_map.mp member
      exact absurd same (below node inChain).ne
    · rw [List.map_cons, values]

theorem ofValues_value (older : List α) : ∀ node ∈ (ofValues older).1, node.1 ∈ older := by
  induction older with
  | nil => simp [ofValues]
  | cons value older ih =>
    intro node member
    rcases List.mem_append.mp member with before | last
    · exact List.mem_cons_of_mem _ (ih node before)
    · rw [List.mem_singleton.mp last]
      exact List.mem_cons_self ..

theorem Sound.start (older : List α) :
    ∃ chain, Sound (start older : PushList θ α) chain ∧ chain.map Prod.snd = older := by
  obtain ⟨chain, linked, distinct, values⟩ := ofValues_linked older
  exact ⟨chain, ⟨linked, distinct, fun t address now => by simp [PushList.start, Pushing.node] at now,
    fun t t' address now => by simp [PushList.start, Pushing.node] at now⟩, values⟩

theorem setNext_other (s : PushList θ α) {address other : Nat} (next : Option Nat) (different : address ≠ other) :
    (s.setNext address next)[other]? = s.nodes[other]? := by
  simp [setNext, different]

theorem getElem?_setNext (s : PushList θ α) (address : Nat) (next : Option Nat) (other : Nat) :
    (s.setNext address next)[other]?.map Prod.fst = s.nodes[other]?.map Prod.fst := by
  rw [setNext, List.getElem?_modify]
  cases s.nodes[other]? with
  | none => rfl
  | some node =>
    simp only [Option.map_eq_map, Option.map_some, Option.some.injEq]
    split <;> rfl

variable [DecidableEq θ]

theorem node_update {t u : θ} {pushing : Pushing} {address : Nat}
    (now : (Function.update s.pushing t pushing u).node = some address) :
    u = t ∧ pushing.node = some address ∨ u ≠ t ∧ (s.pushing u).node = some address := by
  by_cases here : u = t
  · subst here
    rw [Function.update_self] at now
    exact .inl ⟨rfl, now⟩
  · rw [Function.update_of_ne here] at now
    exact .inr ⟨here, now⟩

/-- A thread moves on with its node, whose link it may set: nothing of the list or of the others changes. -/
theorem Sound.moved (sound : Sound s chain) {t : θ} {address : Nat} {nodes : List (α × Option Nat)}
    {pushing : Pushing} (mine : (s.pushing t).node = some address) (still : pushing.node = some address)
    (length : nodes.length = s.nodes.length) (others : ∀ other, address ≠ other → nodes[other]? = s.nodes[other]?) :
    Sound { s with nodes := nodes, pushing := Function.update s.pushing t pushing } chain := by
  have outside := (sound.own t address mine).2
  have same : ∀ u, (Function.update s.pushing t pushing u).node = (s.pushing u).node := by
    intro u
    by_cases here : u = t
    · subst here
      rw [Function.update_self, still, mine]
    · rw [Function.update_of_ne here]
  refine ⟨sound.linked.frame fun node member => others _ fun same => ?_, sound.distinct, fun u other now => ?_,
    fun u u' other now now' => ?_⟩
  · exact outside (same ▸ List.mem_map_of_mem member)
  · rw [same] at now
    rw [length]
    exact sound.own u other now
  · rw [same] at now now'
    exact sound.apart u u' other now now'

/-- Each step keeps the list a chain: a push puts its node in front, and every other step leaves the list
as it was. The nodes of the list are not touched by either. -/
theorem Sound.step (sound : Sound s chain) (taken : s.step e = some s') :
    ∃ chain', Sound s' chain' ∧ chain <:+ chain' ∧ chain'.map Prod.snd = (s.pushed e).toList ++ chain.map Prod.snd ∧
      ∀ node ∈ chain, s'.nodes[node.1]? = s.nodes[node.1]? := by
  cases e with
  | new t value =>
    simp only [PushList.step] at taken
    split at taken
    next free =>
      cases taken
      have kept : ∀ node ∈ chain, (s.nodes ++ [(value, none)])[node.1]? = s.nodes[node.1]? := fun node member =>
        List.getElem?_append_left (sound.linked.mem_lt node member)
      refine ⟨chain, ⟨sound.linked.frame kept, sound.distinct, fun u address now => ?_,
        fun u u' address now now' => ?_⟩, List.suffix_refl _, rfl, kept⟩
      · rw [List.length_append, List.length_singleton]
        rcases node_update now with ⟨-, fresh⟩ | ⟨-, old⟩
        · cases fresh
          refine ⟨Nat.lt_succ_self _, fun member => ?_⟩
          obtain ⟨node, inChain, same⟩ := List.mem_map.mp member
          exact absurd same (sound.linked.mem_lt node inChain).ne
        · exact ⟨(sound.own u address old).1.trans (Nat.lt_succ_self _), (sound.own u address old).2⟩
      · rcases node_update now with ⟨rfl, fresh⟩ | ⟨-, old⟩ <;> rcases node_update now' with ⟨rfl, fresh'⟩ | ⟨-, old'⟩
        · rfl
        · cases fresh
          exact absurd (sound.own u' _ old').1 (lt_irrefl _)
        · cases fresh'
          exact absurd (sound.own u _ old).1 (lt_irrefl _)
        · exact sound.apart u u' address old old'
    next => cases taken
  | load t =>
    simp only [PushList.step] at taken
    split at taken
    next address allocated =>
      cases taken
      have mine : (s.pushing t).node = some address := by rw [allocated]; rfl
      have others : ∀ other, address ≠ other → (s.setNext address s.head)[other]? = s.nodes[other]? := fun _ =>
        setNext_other s s.head
      refine ⟨chain, sound.moved mine rfl (by simp [setNext]) others, List.suffix_refl _, rfl, fun node member =>
        others _ fun same => ?_⟩
      exact (sound.own t address mine).2 (same ▸ List.mem_map_of_mem member)
    next => cases taken
  | retry t =>
    simp only [PushList.step] at taken
    split at taken
    next address loaded =>
      cases taken
      have mine : (s.pushing t).node = some address := by rw [loaded]; rfl
      have others : ∀ other, address ≠ other → (s.setNext address s.head)[other]? = s.nodes[other]? := fun _ =>
        setNext_other s s.head
      have moved := sound.moved mine (show (Pushing.loaded address).node = some address from rfl)
        (by simp [setNext]) others
      rw [← loaded, Function.update_eq_self] at moved
      refine ⟨chain, moved, List.suffix_refl _, rfl, fun node member => others _ fun same => ?_⟩
      exact (sound.own t address mine).2 (same ▸ List.mem_map_of_mem member)
    next => cases taken
  | push t =>
    simp only [PushList.step] at taken
    split at taken
    next address loaded =>
      split at taken
      next value next here =>
        split at taken
        next current =>
          cases taken
          have mine : (s.pushing t).node = some address := by rw [loaded]; rfl
          have same : ∀ u other, (Function.update s.pushing t .idle u).node = some other →
            u ≠ t ∧ (s.pushing u).node = some other := by
            intro u other now
            rcases node_update now with ⟨-, none'⟩ | theirs
            · cases none'
            · exact theirs
          refine ⟨(address, value) :: chain,
            ⟨.cons here (current ▸ sound.linked), ?_, fun u other now => ?_, fun u u' other now now' => ?_⟩,
            List.suffix_cons .., by simp [pushed, mine, here], fun _ _ => rfl⟩
          · rw [List.map_cons, List.nodup_cons]
            exact ⟨(sound.own t address mine).2, sound.distinct⟩
          · obtain ⟨different, theirs⟩ := same u other now
            obtain ⟨below, outside⟩ := sound.own u other theirs
            refine ⟨below, ?_⟩
            rw [List.map_cons, List.mem_cons]
            rintro (rfl | inside)
            · exact different (sound.apart u t _ theirs mine)
            · exact outside inside
          · exact sound.apart u u' other (same u other now).2 (same u' other now').2
        next => cases taken
      next => cases taken
    next => cases taken

/-- What a step does to the memory, whoever has the nodes: it sets links, or adds a node. -/
theorem nodes_of_step (taken : s.step e = some s') :
    (∃ t value, e = .new t value ∧ s'.nodes = s.nodes ++ [(value, none)]) ∨ s'.nodes = s.nodes ∨
      ∃ address next, s'.nodes = s.setNext address next := by
  cases e with
  | new t value =>
    simp only [PushList.step] at taken
    split at taken
    next =>
      cases taken
      exact .inl ⟨t, value, rfl, rfl⟩
    next => cases taken
  | load t | retry t =>
    simp only [PushList.step] at taken
    split at taken
    next address _ =>
      cases taken
      exact .inr (.inr ⟨address, s.head, rfl⟩)
    next => cases taken
  | push t =>
    simp only [PushList.step] at taken
    split at taken <;> try split at taken
    all_goals try split at taken
    all_goals first | cases taken; exact .inr (.inl rfl) | cases taken

/-- A node keeps its value. -/
theorem value_kept (taken : s.step e = some s') {address : Nat} {value : α}
    (here : s.nodes[address]?.map Prod.fst = some value) :
    s'.nodes[address]?.map Prod.fst = some value := by
  rcases nodes_of_step taken with ⟨t, fresh, -, grown⟩ | same | ⟨other, next, set⟩
  · obtain ⟨node, at', -⟩ := Option.map_eq_some_iff.mp here
    rw [grown, List.getElem?_append_left (List.getElem?_eq_some_iff.mp at').1, here]
  · rw [same, here]
  · rw [set, getElem?_setNext, here]

/-- The values in memory after a step are those before it, and that of a new node. -/
theorem value_of_step (taken : s.step e = some s') {node : α × Option Nat} (member : node ∈ s'.nodes) :
    (∃ before ∈ s.nodes, before.1 = node.1) ∨ ∃ t, e = .new t node.1 := by
  rcases nodes_of_step taken with ⟨t, value, rfl, grown⟩ | same | ⟨address, next, set⟩
  · rw [grown] at member
    rcases List.mem_append.mp member with old | fresh
    · exact .inl ⟨node, old, rfl⟩
    · rw [List.mem_singleton.mp fresh]
      exact .inr ⟨t, rfl⟩
  · exact .inl ⟨node, same ▸ member, rfl⟩
  · rw [set] at member
    obtain ⟨i, at'⟩ := List.mem_iff_getElem?.mp member
    have kept := getElem?_setNext s address next i
    rw [at', Option.map_some] at kept
    obtain ⟨before, here, value⟩ := Option.map_eq_some_iff.mp kept.symm
    exact .inl ⟨before, List.mem_of_getElem? here, value⟩

theorem node_of_push {t : θ} (taken : s.step (.push t) = some s') : ∃ address, (s.pushing t).node = some address := by
  simp only [PushList.step] at taken
  split at taken
  next address loaded => exact ⟨address, by rw [loaded]; rfl⟩
  next => cases taken

/-- The node that a thread has after a step it has had before, or it is the one it has just allocated. -/
theorem node_of_step (taken : s.step e = some s') {t : θ} {address : Nat} (now : (s'.pushing t).node = some address) :
    (s.pushing t).node = some address ∨ ∃ value, e = .new t value ∧ s'.nodes[address]?.map Prod.fst = some value := by
  cases e with
  | new u value =>
    simp only [PushList.step] at taken
    split at taken
    next =>
      cases taken
      rcases node_update now with ⟨rfl, fresh⟩ | ⟨-, old⟩
      · cases fresh
        exact .inr ⟨value, rfl, by simp⟩
      · exact .inl old
    next => cases taken
  | load u =>
    simp only [PushList.step] at taken
    split at taken
    next address' allocated =>
      cases taken
      rcases node_update now with ⟨rfl, same⟩ | ⟨-, old⟩
      · rw [allocated]
        exact .inl same
      · exact .inl old
    next => cases taken
  | push u =>
    simp only [PushList.step] at taken
    split at taken <;> try split at taken
    all_goals try split at taken
    all_goals try cases taken
    rcases node_update now with ⟨-, none'⟩ | ⟨-, old⟩
    · cases none'
    · exact .inl old
  | retry u =>
    simp only [PushList.step] at taken
    split at taken
    next =>
      cases taken
      exact .inl now
    next => cases taken

end PushList
