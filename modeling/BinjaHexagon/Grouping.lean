import Mathlib.Data.List.Basic
/-!
# Grouping — operator chains and the trees they are read as

An operand with its prefix operators, an infix operator, the next operand, and so on: a grammar `e : a | p e | e o e`
reads such a chain as any tree with that yield.  `shift` is the reading of a parser that always shifts, `group` the
one where prefixes bind tightest and infix operators by precedence, to the left among equals.
-/
namespace Grouping

/-- Operands, each with the prefix operators before it, and the infix operators between them. -/
inductive Chain (π β α : Type) where
  | last (ps : List π) (a : α)
  | link (ps : List π) (a : α) (o : β) (rest : Chain π β α)
  deriving Repr, DecidableEq

inductive Tree (π β α : Type) where
  | atom (a : α)
  | pre (p : π) (t : Tree π β α)
  | bin (o : β) (l r : Tree π β α)
  deriving Repr, DecidableEq

variable {π β α α' γ : Type}

namespace Chain

def map (f : α → α') : Chain π β α → Chain π β α'
  | last ps a => last ps (f a)
  | link ps a o c => link ps (f a) o (c.map f)

def atoms : Chain π β α → List α
  | last _ a => [a]
  | link _ a _ c => a :: c.atoms

def append : Chain π β α → β → Chain π β α → Chain π β α
  | last ps a, o, d => link ps a o d
  | link ps a o' c, o, d => link ps a o' (c.append o d)

/-- One more prefix operator before the first operand. -/
def cons (p : π) : Chain π β α → Chain π β α
  | last ps a => last (p :: ps) a
  | link ps a o c => link (p :: ps) a o c

/-- The first operand. -/
def head : Chain π β α → α
  | last _ a | link _ a _ _ => a

/-- The infix operators, in order. -/
def ops : Chain π β α → List β
  | last _ _ => []
  | link _ _ o c => o :: c.ops

theorem append_assoc (o o' : β) (d e : Chain π β α) : ∀ c : Chain π β α,
    (c.append o d).append o' e = c.append o (d.append o' e)
  | last _ _ => rfl
  | link ps a o₁ c => congrArg (link ps a o₁) (append_assoc o o' d e c)

theorem cons_append (p : π) (o : β) (d : Chain π β α) : ∀ c : Chain π β α,
    (c.cons p).append o d = (c.append o d).cons p
  | last _ _ => rfl
  | link _ _ _ _ => rfl

theorem head_append (o : β) (d : Chain π β α) : ∀ c : Chain π β α, (c.append o d).head = c.head
  | last _ _ => rfl
  | link _ _ _ _ => rfl

theorem head_cons (p : π) : ∀ c : Chain π β α, (c.cons p).head = c.head
  | last _ _ => rfl
  | link _ _ _ _ => rfl

theorem ops_map (f : α → α') : ∀ c : Chain π β α, (c.map f).ops = c.ops
  | last _ _ => rfl
  | link _ _ o c => congrArg (o :: ·) (ops_map f c)

theorem map_congr {f g : α → α'} : ∀ {c : Chain π β α}, (∀ a ∈ c.atoms, f a = g a) → c.map f = c.map g
  | last ps a, h => congrArg (last ps) (h a List.mem_cons_self)
  | link ps a o c, h => by
    rw [map, map, h a List.mem_cons_self, map_congr fun b hb => h b (List.mem_cons_of_mem _ hb)]

theorem ops_append (o : β) (d : Chain π β α) : ∀ c : Chain π β α, (c.append o d).ops = c.ops ++ o :: d.ops
  | last _ _ => rfl
  | link _ _ o' c => congrArg (o' :: ·) (ops_append o d c)

theorem ops_cons (p : π) : ∀ c : Chain π β α, (c.cons p).ops = c.ops
  | last _ _ => rfl
  | link _ _ _ _ => rfl

end Chain

namespace Tree

/-- The prefix operators of a list, the first outermost. -/
def pres (ps : List π) (t : Tree π β α) : Tree π β α := ps.foldr pre t

/-- What the tree is a reading of. -/
def toChain : Tree π β α → Chain π β α
  | atom a => .last [] a
  | pre p t => t.toChain.cons p
  | bin o l r => l.toChain.append o r.toChain

def root? : Tree π β α → Option β
  | bin o _ _ => some o
  | _ => none

theorem toChain_pres_atom (a : α) : ∀ ps : List π, (pres ps (atom a) : Tree π β α).toChain = .last ps a
  | [] => rfl
  | p :: ps => congrArg (Chain.cons p) (toChain_pres_atom a ps)

theorem toChain_pres_bin (o : β) (a : α) (r : Tree π β α) :
    ∀ ps : List π, (pres ps (bin o (atom a) r)).toChain = .link ps a o r.toChain
  | [] => rfl
  | p :: ps => congrArg (Chain.cons p) (toChain_pres_bin o a r ps)

theorem root?_pres : ∀ {ps : List π} {t : Tree π β α}, t.root? = none → (pres ps t).root? = none
  | [], _, h => h
  | _ :: _, _, _ => rfl

/-- Prefixes have operands without infix operators; an infix operator binds at least as tight in its left operand's
root and tighter in its right one's. -/
def Grouped (prec : β → Nat) : Tree π β α → Prop
  | atom _ => True
  | pre _ t => t.root? = none ∧ t.Grouped prec
  | bin o l r =>
    (∀ o' ∈ l.root?, prec o ≤ prec o') ∧ (∀ o' ∈ r.root?, prec o < prec o') ∧ l.Grouped prec ∧ r.Grouped prec

/-- Put one more operator and operand behind a tree. -/
def attach (prec : β → Nat) : Tree π β α → β → Tree π β α → Tree π β α
  | bin o' l r, o, x => if prec o' < prec o then bin o' l (r.attach prec o x) else bin o (bin o' l r) x
  | atom a, o, x => bin o (atom a) x
  | pre p t, o, x => bin o (pre p t) x

theorem toChain_attach (prec : β → Nat) (o : β) (x : Tree π β α) : ∀ t : Tree π β α,
    (t.attach prec o x).toChain = t.toChain.append o x.toChain
  | atom _ => rfl
  | pre _ _ => rfl
  | bin o' l r => by
    unfold attach
    split
    · rw [toChain, toChain_attach prec o x r, toChain, Chain.append_assoc]
    · rfl

variable {prec : β → Nat}

theorem attach_of_le {o : β} {x t : Tree π β α} (h : ∀ o' ∈ t.root?, prec o ≤ prec o') :
    t.attach prec o x = bin o t x := by
  cases t with
  | atom a => rfl
  | pre p t => rfl
  | bin o' l r => rw [attach, if_neg (Nat.not_lt.2 (h o' rfl))]

theorem root?_attach {o : β} {x t : Tree π β α} :
    ∀ o' ∈ (t.attach prec o x).root?, o' = o ∨ (o' ∈ t.root? ∧ prec o' < prec o) := by
  intro o' h
  cases t with
  | atom a => exact .inl (Option.some.inj h).symm
  | pre p t => exact .inl (Option.some.inj h).symm
  | bin o₁ l r =>
    unfold attach at h
    split at h
    · obtain rfl := Option.some.inj h
      exact .inr ⟨rfl, ‹_›⟩
    · exact .inl (Option.some.inj h).symm

theorem Grouped.attach {o : β} {x : Tree π β α} (hx : x.Grouped prec) (hroot : x.root? = none) :
    ∀ {t : Tree π β α}, t.Grouped prec → (t.attach prec o x).Grouped prec
  | atom _, h => ⟨fun _ h => (by cases h), fun _ h => (by rw [hroot] at h; cases h), h, hx⟩
  | pre _ _, h => ⟨fun _ h => (by cases h), fun _ h => (by rw [hroot] at h; cases h), h, hx⟩
  | bin o' l r, h => by
    unfold Tree.attach
    split
    · rename_i hlt
      refine ⟨h.1, fun o'' ho => ?_, h.2.2.1, Grouped.attach hx hroot h.2.2.2⟩
      rcases root?_attach o'' ho with rfl | ⟨ho, -⟩
      · exact hlt
      · exact h.2.1 o'' ho
    · rename_i hle
      refine ⟨fun o'' ho => ?_, fun _ h => (by rw [hroot] at h; cases h), h, hx⟩
      obtain rfl := Option.some.inj ho
      exact Nat.not_lt.1 hle

theorem Grouped.pres_atom (a : α) : ∀ ps : List π, (pres ps (atom a) : Tree π β α).Grouped prec
  | [] => trivial
  | _ :: ps => ⟨root?_pres rfl, pres_atom a ps⟩

end Tree

namespace Chain

/-- The reading of a parser that never reduces while it can shift: everything to the right comes first. -/
def shift : Chain π β α → Tree π β α
  | last ps a => .pres ps (.atom a)
  | link ps a o c => .pres ps (.bin o (.atom a) c.shift)

/-- Put the rest of a chain behind a tree. -/
def groupOnto (prec : β → Nat) : Chain π β α → Tree π β α → β → Tree π β α
  | last ps a, t, o => t.attach prec o (.pres ps (.atom a))
  | link ps a o' c, t, o => c.groupOnto prec (t.attach prec o (.pres ps (.atom a))) o'

/-- The reading by precedence. -/
def group (prec : β → Nat) : Chain π β α → Tree π β α
  | last ps a => .pres ps (.atom a)
  | link ps a o c => c.groupOnto prec (.pres ps (.atom a)) o

theorem toChain_shift : ∀ c : Chain π β α, c.shift.toChain = c
  | last ps a => Tree.toChain_pres_atom a ps
  | link ps a o c => by rw [shift, Tree.toChain_pres_bin, toChain_shift c]

theorem toChain_groupOnto (prec : β → Nat) : ∀ (c : Chain π β α) (t : Tree π β α) (o : β),
    (c.groupOnto prec t o).toChain = t.toChain.append o c
  | last ps a, t, o => by rw [groupOnto, Tree.toChain_attach, Tree.toChain_pres_atom]
  | link ps a o' c, t, o => by
    rw [groupOnto, toChain_groupOnto prec c, Tree.toChain_attach, Tree.toChain_pres_atom, append_assoc]
    rfl

theorem toChain_group (prec : β → Nat) : ∀ c : Chain π β α, (c.group prec).toChain = c
  | last ps a => Tree.toChain_pres_atom a ps
  | link ps a o c => by rw [group, toChain_groupOnto, Tree.toChain_pres_atom]; rfl

theorem grouped_groupOnto (prec : β → Nat) : ∀ (c : Chain π β α) {t : Tree π β α} (o : β), t.Grouped prec →
    (c.groupOnto prec t o).Grouped prec
  | last ps a, _, _, h => .attach (.pres_atom a ps) (Tree.root?_pres rfl) h
  | link ps a o' c, _, _, h => grouped_groupOnto prec c o' (.attach (.pres_atom a ps) (Tree.root?_pres rfl) h)

theorem grouped_group (prec : β → Nat) : ∀ c : Chain π β α, (c.group prec).Grouped prec
  | last ps a => .pres_atom a ps
  | link ps a o c => grouped_groupOnto prec c o (.pres_atom a ps)

theorem group_append (prec : β → Nat) (o : β) (d : Chain π β α) : ∀ c : Chain π β α,
    (c.append o d).group prec = d.groupOnto prec (c.group prec) o := by
  have honto : ∀ (c : Chain π β α) (t : Tree π β α) (o' : β),
      (c.append o d).groupOnto prec t o' = d.groupOnto prec (c.groupOnto prec t o') o := by
    intro c
    induction c with
    | last ps a => exact fun _ _ => rfl
    | link ps a o₁ c ih => exact fun t o' => ih _ _
  intro c
  cases c with
  | last ps a => rfl
  | link ps a o' c => exact honto c _ o'

/-- Operators tighter than the root go into its right operand. -/
theorem groupOnto_bin {prec : β → Nat} {o : β} {t : Tree π β α} : ∀ {c : Chain π β α} {x : Tree π β α} {o' : β},
    (∀ q ∈ o' :: c.ops, prec o < prec q) → c.groupOnto prec (.bin o t x) o' = .bin o t (c.groupOnto prec x o')
  | last ps a, x, o', h => by rw [groupOnto, Tree.attach, if_pos (h o' List.mem_cons_self)]; rfl
  | link ps a o₁ c, x, o', h => by
    rw [groupOnto, Tree.attach, if_pos (h o' List.mem_cons_self)]
    exact groupOnto_bin fun q hq => h q (List.mem_cons_of_mem _ hq)

theorem groupOnto_of_lt {prec : β → Nat} {o : β} {t : Tree π β α} (ht : ∀ o' ∈ t.root?, prec o ≤ prec o') :
    ∀ {c : Chain π β α}, (∀ q ∈ c.ops, prec o < prec q) → c.groupOnto prec t o = .bin o t (c.group prec)
  | last ps a, _ => Tree.attach_of_le ht
  | link ps a o' c, h => by
    rw [groupOnto, Tree.attach_of_le ht]
    exact groupOnto_bin h

end Chain

namespace Tree

variable {prec : β → Nat}

/-- In a grouped tree no operator binds looser than the root. -/
theorem Grouped.ops : ∀ {t : Tree π β α}, t.Grouped prec → ∀ q ∈ t.toChain.ops, ∃ o ∈ t.root?, prec o ≤ prec q
  | atom _, _, _, hq => absurd hq List.not_mem_nil
  | pre p t, h, q, hq => by
    rw [toChain, Chain.ops_cons] at hq
    obtain ⟨o, ho, -⟩ := Grouped.ops h.2 q hq
    rw [h.1] at ho
    cases ho
  | bin o l r, h, q, hq => by
    refine ⟨o, rfl, ?_⟩
    rw [toChain, Chain.ops_append, List.mem_append, List.mem_cons] at hq
    rcases hq with hq | rfl | hq
    · obtain ⟨o', ho', hle⟩ := Grouped.ops h.2.2.1 q hq
      exact Nat.le_trans (h.1 o' ho') hle
    · exact Nat.le_refl _
    · obtain ⟨o', ho', hle⟩ := Grouped.ops h.2.2.2 q hq
      exact Nat.le_trans (Nat.le_of_lt (h.2.1 o' ho')) hle

theorem Grouped.eq_pres : ∀ {t : Tree π β α}, t.Grouped prec → t.root? = none → ∃ ps a, t = pres ps (atom a)
  | atom a, _, _ => ⟨[], a, rfl⟩
  | pre p _, h, _ =>
    have ⟨ps, a, ht⟩ := Grouped.eq_pres h.2 h.1
    ⟨p :: ps, a, congrArg (pre p) ht⟩

/-- **There is one grouped reading of a chain.** -/
theorem Grouped.group_toChain : ∀ {t : Tree π β α}, t.Grouped prec → t.toChain.group prec = t
  | atom _, _ => rfl
  | pre p t, h => by
    obtain ⟨ps, a, ht⟩ := Grouped.eq_pres h rfl
    rw [ht, toChain_pres_atom, Chain.group]
  | bin o l r, h => by
    have hr : ∀ q ∈ r.toChain.ops, prec o < prec q := fun q hq => by
      obtain ⟨o', ho', hle⟩ := h.2.2.2.ops q hq
      exact Nat.lt_of_lt_of_le (h.2.1 o' ho') hle
    rw [toChain, Chain.group_append, h.2.2.1.group_toChain, Chain.groupOnto_of_lt h.1 hr, h.2.2.2.group_toChain]

end Tree

/-- A syntax that trees are written in: its operators are told apart, and nothing contains itself. -/
structure Syntax (π β γ : Type) where
  pre : π → γ → γ
  bin : β → γ → γ → γ
  weight : γ → Nat
  pre_inj : ∀ {p q x y}, pre p x = pre q y → x = y
  bin_inj : ∀ {o o' x y x' y'}, bin o x y = bin o' x' y' → o = o' ∧ x = x' ∧ y = y'
  pre_ne_bin : ∀ p x o y z, pre p x ≠ bin o y z
  weight_pre : ∀ p x, weight x ≤ weight (pre p x)
  weight_bin : ∀ o x y, weight x < weight (bin o x y)

namespace Syntax

variable (S : Syntax π β γ)

def eval : Tree π β γ → γ
  | .atom a => a
  | .pre p t => S.pre p (eval t)
  | .bin o l r => S.bin o (eval l) (eval r)

theorem weight_head : ∀ t : Tree π β γ, S.weight t.toChain.head ≤ S.weight (S.eval t)
  | .atom _ => Nat.le_refl _
  | .pre p t => by
    rw [Tree.toChain, Chain.head_cons]
    exact Nat.le_trans (weight_head t) (S.weight_pre p _)
  | .bin o l r => by
    rw [Tree.toChain, Chain.head_append]
    exact Nat.le_trans (weight_head l) (Nat.le_of_lt (S.weight_bin o _ _))

theorem weight_head_lt : ∀ {t : Tree π β γ}, t.toChain.ops ≠ [] → S.weight t.toChain.head < S.weight (S.eval t)
  | .atom _, h => absurd rfl h
  | .pre p t, h => by
    rw [Tree.toChain, Chain.ops_cons] at h
    rw [Tree.toChain, Chain.head_cons]
    exact Nat.lt_of_lt_of_le (weight_head_lt h) (S.weight_pre p _)
  | .bin o l r, _ => by
    rw [Tree.toChain, Chain.head_append]
    exact Nat.lt_of_le_of_lt (S.weight_head l) (S.weight_bin o _ _)

theorem eval_pres_inj {t u : Tree π β γ} : ∀ {ps : List π}, S.eval (.pres ps t) = S.eval (.pres ps u) →
    S.eval t = S.eval u
  | [], h => h
  | _ :: _, h => eval_pres_inj (S.pre_inj h)

end Syntax

namespace Chain

/-- Prefixes only before the last operand, and every operator tighter than the one before it. -/
def Rising (prec : β → Nat) : Chain π β α → Prop
  | last _ _ => True
  | link ps _ o c => ps = [] ∧ (∀ o' ∈ c.ops.head?, prec o < prec o') ∧ c.Rising prec

variable {prec : β → Nat}

theorem rising_map (f : α → α') : ∀ {c : Chain π β α}, (c.map f).Rising prec ↔ c.Rising prec
  | last _ _ => .rfl
  | link ps a o c => by rw [map, Rising, Rising, ops_map, rising_map f]

theorem root?_shift : ∀ {c : Chain π β α}, c.Rising prec → c.shift.root? = c.ops.head?
  | last _ _, _ => Tree.root?_pres rfl
  | link _ _ _ _, h => by rw [shift, h.1]; rfl

theorem Rising.grouped : ∀ {c : Chain π β α}, c.Rising prec → c.shift.Grouped prec
  | last ps a, _ => .pres_atom a ps
  | link ps a o c, h => by
    rw [shift, h.1]
    exact ⟨fun _ ho => (by cases ho), fun o' ho => h.2.1 o' (root?_shift h.2.2 ▸ ho), trivial, h.2.2.grouped⟩

/-- A rising chain has one reading: the parser's is the one by precedence. -/
theorem Rising.shift_eq {c : Chain π β α} (h : c.Rising prec) : c.shift = c.group prec := by
  rw [← h.grouped.group_toChain, toChain_shift]

theorem group_link (ps : List π) (a : α) (o : β) (c : Chain π β α) :
    ∃ o' l r, (link ps a o c).group prec = .bin o' l r := by
  have htree := toChain_group prec (link ps a o c)
  have hg := grouped_group prec (link ps a o c)
  cases ht : (link ps a o c).group prec with
  | atom b => rw [ht] at htree; cases htree
  | bin o' l r => exact ⟨o', l, r, rfl⟩
  | pre p t =>
    rw [ht] at hg htree
    obtain ⟨qs, b, hb⟩ := Tree.Grouped.eq_pres hg rfl
    rw [hb, Tree.toChain_pres_atom] at htree
    cases htree

/-- **When always shifting is right**: written out in any syntax, the two readings of a chain are the same exactly when
the chain rises. -/
theorem eval_shift_eq_group_iff (S : Syntax π β γ) {f g : α → γ} (hw : ∀ a, S.weight (f a) = S.weight (g a)) :
    ∀ c : Chain π β α, S.eval (c.map f).shift = S.eval ((c.map g).group prec) ↔
      c.Rising prec ∧ ∀ a ∈ c.atoms, f a = g a := by
  intro c
  constructor
  · induction c with
    | last ps a =>
      intro h
      refine ⟨trivial, fun b hb => ?_⟩
      rw [List.mem_singleton.1 hb]
      exact S.eval_pres_inj h
    | link ps a o c ih =>
      intro h
      obtain ⟨o', l, r, ht⟩ := @group_link π β γ prec ps (g a) o (c.map g)
      have hchain := toChain_group prec (link ps (g a) o (c.map g))
      have hg := grouped_group prec (link ps (g a) o (c.map g))
      rw [map, map, ht] at h
      rw [ht] at hchain hg
      cases ps with
      | cons p ps => exact absurd h (S.pre_ne_bin _ _ _ _ _)
      | nil =>
        obtain ⟨ho, ha, hrest⟩ := S.bin_inj h
        -- a left operand of more than one operand outweighs the first
        have hl : l.toChain.ops = [] := by
          by_contra hne
          have hlt := S.weight_head_lt hne
          have hhead : l.toChain.head = g a := by rw [← head_append o' r.toChain, ← Tree.toChain, hchain]; rfl
          rw [hhead, ← ha, Syntax.eval, hw] at hlt
          exact Nat.lt_irrefl _ hlt
        cases hlc : l.toChain with
        | link qs b o₁ d => rw [hlc] at hl; cases hl
        | last qs b =>
          rw [Tree.toChain, hlc] at hchain
          simp only [append, link.injEq] at hchain
          obtain ⟨rfl, rfl, rfl, hr⟩ := hchain
          have hgr : (c.map g).group prec = r := by rw [← hr, hg.2.2.2.group_toChain]
          rw [← hgr] at hrest
          obtain ⟨hrise, hatoms⟩ := ih hrest
          refine ⟨⟨rfl, fun q hq => hg.2.1 q ?_, hrise⟩, fun b hb => ?_⟩
          · have hrise' := (rising_map g).2 hrise
            rw [← hgr, ← hrise'.shift_eq, root?_shift hrise', ops_map]
            exact hq
          · rcases List.mem_cons.1 hb with rfl | hb
            · have hleaf : l = .atom (g b) := by rw [← hg.2.2.1.group_toChain, hlc]; rfl
              rw [hleaf] at ha
              exact ha
            · exact hatoms b hb
  · rintro ⟨hrise, hatoms⟩
    rw [map_congr hatoms, ((rising_map g).2 hrise).shift_eq]

end Chain
end Grouping
