import OnnxSim.Ramulator.Timing

/-!
# The requests that are served

Each node counts the requests below it whose first command has been issued and that have not been
completed. As long as it is told of the beginning and the end of each of them, the assertions of
`update_serving_requests` hold (`DRAM.Serves.start`, `DRAM.Serves.stop`).
-/

namespace OnnxSim.Ram

variable {addr path : AddrVec} {served served' : List AddrVec} {n m : Node} {clk : Nat}

namespace Node

/-- A node counts the requests of the addresses `served`, and knows that there has been a first one. -/
structure Serves (served : List AddrVec) (path : AddrVec) (n : Node) : Prop where
  id : (n.id : Int) = path.get n.level.toNat
  cur : n.curServingRequests = served.countP fun a => decide (a.Agree (n.level.toNat + 1) path)
  begin : 0 < n.curServingRequests → n.beginOfServing ≠ -1

theorem updateServingRequests_frame {delta : Int}
    (h : n.updateServingRequests addr delta clk = some m) : m.SameTimes n ∧ m.SameRows n := by
  unfold updateServingRequests at h
  split at h
  · simp only at h
    split at h
    · obtain rfl := Option.some.inj h
      exact ⟨⟨rfl, rfl, rfl, rfl⟩, ⟨rfl, rfl, rfl, rfl⟩⟩
    · split at h
      · split at h
        · obtain rfl := Option.some.inj h
          exact ⟨⟨rfl, rfl, rfl, rfl⟩, ⟨rfl, rfl, rfl, rfl⟩⟩
        · cases h
      · obtain rfl := Option.some.inj h
        exact ⟨⟨rfl, rfl, rfl, rfl⟩, ⟨rfl, rfl, rfl, rfl⟩⟩
  · cases h

namespace Serves

theorem congr (h : n.Serves served path) (hsame : m.SameServing n) : m.Serves served path where
  id := by rw [hsame.level, hsame.id]; exact h.id
  cur := by rw [hsame.level, hsame.cur]; exact h.cur
  begin := by rw [hsame.cur, hsame.begin]; exact h.begin

theorem perm (h : n.Serves served path) (hperm : served'.Perm served) : n.Serves served' path where
  id := h.id
  cur := by rw [hperm.countP_eq]; exact h.cur
  begin := h.begin

/-- A request for elsewhere. -/
theorem away (hne : ¬ addr.Agree (n.level.toNat + 1) path) :
    n.Serves (addr :: served) path ↔ n.Serves served path := by
  have hcount : (addr :: served).countP (fun a => decide (a.Agree (n.level.toNat + 1) path)) =
      served.countP fun a => decide (a.Agree (n.level.toNat + 1) path) :=
    List.countP_cons_of_neg fun h => hne (of_decide_eq_true h)
  constructor
  · exact fun h => ⟨h.id, by rw [← hcount]; exact h.cur, h.begin⟩
  · exact fun h => ⟨h.id, by rw [hcount]; exact h.cur, h.begin⟩

theorem count_cons (hagree : addr.Agree (n.level.toNat + 1) path) :
    (addr :: served).countP (fun a => decide (a.Agree (n.level.toNat + 1) path)) =
      served.countP (fun a => decide (a.Agree (n.level.toNat + 1) path)) + 1 :=
  List.countP_cons_of_pos (decide_eq_true hagree)

theorem start (h : n.Serves served path) (hagree : addr.Agree (n.level.toNat + 1) path) :
    ∃ m, n.updateServingRequests addr 1 clk = some m ∧ m.Serves (addr :: served) path := by
  have hid : (n.id : Int) = addr.get n.level.toNat := by
    rw [h.id, hagree _ (Nat.lt_succ_self _)]
  have hcur := h.cur
  unfold updateServingRequests
  rw [if_pos ⟨hid, by omega⟩]
  simp only
  by_cases hfirst : n.curServingRequests + 1 = 1
  · rw [if_pos ⟨trivial, hfirst⟩]
    refine ⟨_, rfl, h.id, ?_, fun _ => ?_⟩
    · change n.curServingRequests + 1 = _
      rw [count_cons (n := n) hagree, hcur]
      rfl
    · change (clk : Int) ≠ -1
      omega
  · rw [if_neg fun h' => hfirst h'.2, if_neg (by omega)]
    refine ⟨_, rfl, h.id, ?_, fun _ => h.begin (by omega)⟩
    change n.curServingRequests + 1 = _
    rw [count_cons (n := n) hagree, hcur]
    rfl

theorem stop (h : n.Serves (addr :: served) path) (hagree : addr.Agree (n.level.toNat + 1) path) :
    ∃ m, n.updateServingRequests addr (-1) clk = some m ∧ m.Serves served path := by
  have hid : (n.id : Int) = addr.get n.level.toNat := by
    rw [h.id, hagree _ (Nat.lt_succ_self _)]
  have hcur := h.cur
  rw [count_cons hagree] at hcur
  have hbegin := h.begin (by omega)
  have hcur' : n.curServingRequests + -1 =
      served.countP fun a => decide (a.Agree (n.level.toNat + 1) path) := by omega
  unfold updateServingRequests
  rw [if_pos ⟨hid, by omega⟩]
  simp only
  rw [if_neg fun h' => absurd h'.1 (by decide)]
  split
  · rw [if_pos ⟨hbegin, trivial⟩]
    exact ⟨_, rfl, h.id, hcur', fun _ => hbegin⟩
  · exact ⟨_, rfl, h.id, hcur', fun _ => hbegin⟩

end Serves

end Node

namespace DRAM

variable {d d' : DRAM}

/-- What the nodes of a tree count; `path` leads to its root. -/
def Serves (served : List AddrVec) : DRAM → AddrVec → Prop
  | leaf n, path => n.level = .Bank ∧ path.length = n.level.toNat + 1 ∧ n.Serves served path
  | branch n _ children, path => n.level.toNat < Level.Bank.toNat ∧
      path.length = n.level.toNat + 1 ∧ n.Serves served path ∧
      ∀ i : Nat, (children i).node.level = n.level.child ∧ Serves served (children i) (path ++ [(i : Int)])

theorem updateServingRequests_frame {delta : Int}
    (h : d.updateServingRequests addr delta clk = some d') :
    d'.Lift (fun n m => n.SameTimes m ∧ n.SameRows m) d := by
  induction d generalizing d' with
  | leaf n =>
    obtain ⟨m, hm, rfl⟩ := Option.map_eq_some_iff.mp h
    exact .leaf (Node.updateServingRequests_frame hm)
  | branch n size children ih =>
    unfold updateServingRequests at h
    obtain ⟨m, hm, h⟩ := Option.bind_eq_some_iff.mp h
    have hframe := Node.updateServingRequests_frame hm
    have hrefl : ∀ n : Node, n.SameTimes n ∧ n.SameRows n := fun n => ⟨.refl n, .refl n⟩
    simp only at h
    split at h
    · obtain rfl := Option.some.inj h
      exact .branch hframe fun i => .refl hrefl (children i)
    · obtain ⟨c, hc, h⟩ := Option.bind_eq_some_iff.mp h
      obtain rfl := Option.some.inj h
      refine .branch hframe fun i => ?_
      by_cases hi : i = (addr.get (m.level.toNat + 1)).toNat
      · subst hi
        rw [Function.update_self]
        exact ih _ hc
      · rw [Function.update_of_ne hi]
        exact .refl hrefl (children i)

namespace Serves

theorem lift (h : d.Serves served path) (hsame : d'.Lift Node.SameServing d) :
    d'.Serves served path := by
  induction hsame generalizing path with
  | leaf node =>
    obtain ⟨hlevel, hlength, hn⟩ := h
    exact ⟨node.level.trans hlevel, by rw [node.level]; exact hlength, hn.congr node⟩
  | branch node children ih =>
    obtain ⟨hlevel, hlength, hn, hchildren⟩ := h
    refine ⟨by rw [node.level]; exact hlevel, by rw [node.level]; exact hlength, hn.congr node, ?_⟩
    intro i
    obtain ⟨hchild, hserves⟩ := hchildren i
    exact ⟨by rw [(children i).node.level, node.level]; exact hchild, ih i hserves⟩

theorem perm (h : d.Serves served path) (hperm : served'.Perm served) : d.Serves served' path := by
  induction d generalizing path with
  | leaf n =>
    obtain ⟨hlevel, hlength, hn⟩ := h
    exact ⟨hlevel, hlength, hn.perm hperm⟩
  | branch n size children ih =>
    obtain ⟨hlevel, hlength, hn, hchildren⟩ := h
    exact ⟨hlevel, hlength, hn.perm hperm, fun i => ⟨(hchildren i).1, ih i (hchildren i).2⟩⟩

theorem new {spec : Spec} {level : Level} {levels : Nat} {id : Nat}
    (hcount : ∀ level : Level, level.toNat ≤ Level.Bank.toNat → spec.count level ≠ 0)
    (hlevel : level.toNat ≤ Level.Bank.toNat) (hlevels : Level.Bank.toNat ≤ level.toNat + levels)
    (hlength : path.length = level.toNat + 1) (hid : (id : Int) = path.get level.toNat) :
    (DRAM.new spec levels level id).Serves [] path := by
  have hnode : (newNode spec level id).Serves [] path := ⟨hid, rfl, fun h => absurd h (Int.lt_irrefl 0)⟩
  induction levels generalizing level path id with
  | zero =>
    have hbank : level = .Bank := Level.eq_of_toNat (by omega)
    exact ⟨hbank, hlength, hnode⟩
  | succ levels ih =>
    unfold DRAM.new
    split
    · rename_i hstop
      have hbank : level = .Bank := by
        cases level <;> simp_all [Level.child, Level.toNat]
      exact ⟨hbank, hlength, hnode⟩
    · rename_i hgo
      have hlt : level.toNat < Level.Bank.toNat := by
        cases level <;> simp_all [Level.child, Level.toNat]
      have hchild := child_toNat hlt
      refine ⟨hlt, hlength, hnode, fun i => ⟨?_, ?_⟩⟩
      · cases levels with
        | zero => rfl
        | succ levels =>
          unfold DRAM.new
          split <;> rfl
      · have hid' : (i : Int) = AddrVec.get (path ++ [(i : Int)]) level.child.toNat := by
          rw [hchild, ← hlength, get_append_self]
        exact ih (by omega) (by omega) (by rw [List.length_append, hlength, hchild]; rfl) hid'
          ⟨hid', rfl, fun h => absurd h (Int.lt_irrefl 0)⟩

/-- A request for elsewhere. -/
theorem away (hne : ¬ addr.Agree (d.node.level.toNat + 1) path) :
    d.Serves (addr :: served) path ↔ d.Serves served path := by
  induction d generalizing path with
  | leaf n =>
    exact and_congr_right fun _ => and_congr_right fun _ => Node.Serves.away hne
  | branch n size children ih =>
    refine and_congr_right fun hlevel => and_congr_right fun hlength =>
      and_congr (Node.Serves.away hne) (forall_congr' fun i => and_congr_right fun hchild => ih i ?_)
    intro hagree
    rw [hchild, child_toNat hlevel, agree_append hlength] at hagree
    exact hne hagree.1

/-- The children of a node, of which the address leads to one. -/
theorem step_children {n : Node} {children : Nat → DRAM} {c : DRAM} {served₁ served₂ : List AddrVec}
    (hlevel : n.level.toNat < Level.Bank.toNat) (hlength : path.length = n.level.toNat + 1)
    (hpos : 0 ≤ addr.get (n.level.toNat + 1))
    (hchildren : ∀ i : Nat, (children i).node.level = n.level.child ∧
      (children i).Serves served₁ (path ++ [(i : Int)]))
    (haway : ∀ i : Nat, (¬ addr.Agree ((children i).node.level.toNat + 1) (path ++ [(i : Int)])) →
      (children i).Serves served₁ (path ++ [(i : Int)]) →
      (children i).Serves served₂ (path ++ [(i : Int)]))
    (hc : c.node.level = n.level.child)
    (hserves : c.Serves served₂ (path ++ [addr.get (n.level.toNat + 1)])) (i : Nat) :
    (Function.update children (addr.get (n.level.toNat + 1)).toNat c i).node.level = n.level.child ∧
      (Function.update children (addr.get (n.level.toNat + 1)).toNat c i).Serves served₂
        (path ++ [(i : Int)]) := by
  by_cases hi : i = (addr.get (n.level.toNat + 1)).toNat
  · have hself : (i : Int) = addr.get (n.level.toNat + 1) := by omega
    rw [hi, Function.update_self, ← hi, hself]
    exact ⟨hc, hserves⟩
  · rw [Function.update_of_ne hi]
    refine ⟨(hchildren i).1, haway i (fun hagree => hi ?_) (hchildren i).2⟩
    rw [(hchildren i).1, child_toNat hlevel, agree_append hlength] at hagree
    omega

/-- An update that each node on the way counts right, and that changes nothing elsewhere. -/
theorem step {spec : Spec} {id : Nat} {delta : Int} {served₁ served₂ : List AddrVec}
    (hnode : ∀ {n : Node} {path : AddrVec}, n.Serves served₁ path →
      addr.Agree (n.level.toNat + 1) path →
      ∃ m, n.updateServingRequests addr delta clk = some m ∧ m.Serves served₂ path)
    (haway : ∀ {d : DRAM} {path : AddrVec}, ¬ addr.Agree (d.node.level.toNat + 1) path →
      d.Serves served₁ path → d.Serves served₂ path)
    (hin : InChannel spec id addr) (h : d.Serves served₁ path)
    (hagree : addr.Agree (d.node.level.toNat + 1) path) :
    ∃ d', d.updateServingRequests addr delta clk = some d' ∧ d'.Serves served₂ path := by
  induction d generalizing path with
  | leaf n =>
    obtain ⟨hlevel, hlength, hn⟩ := h
    obtain ⟨m, hm, hserves⟩ := hnode hn hagree
    have hframe := (Node.updateServingRequests_frame hm).1.level
    refine ⟨leaf m, by rw [updateServingRequests, hm]; rfl, hframe.trans hlevel, ?_, hserves⟩
    rw [hframe]
    exact hlength
  | branch n size children ih =>
    obtain ⟨hlevel, hlength, hn, hchildren⟩ := h
    change addr.Agree (n.level.toNat + 1) path at hagree
    obtain ⟨m, hm, hserves⟩ := hnode hn hagree
    have hframe := (Node.updateServingRequests_frame hm).1.level
    have hchild := child_toNat hlevel
    have hpos := (hin.below n.level.child (by omega) (by rw [hchild]; exact hlevel)).1
    rw [hchild] at hpos
    have hself : ((addr.get (n.level.toNat + 1)).toNat : Int) = addr.get (n.level.toNat + 1) :=
      Int.toNat_of_nonneg hpos
    obtain ⟨hclevel, hcserves⟩ := hchildren (addr.get (n.level.toNat + 1)).toNat
    obtain ⟨c, hc, hcserves'⟩ := ih _ hcserves (by
      rw [hclevel, hchild, agree_append hlength]
      exact ⟨hagree, hself.symm⟩)
    refine ⟨branch m size (Function.update children (addr.get (n.level.toNat + 1)).toNat c), ?_,
      by rw [hframe]; exact hlevel, by rw [hframe]; exact hlength, hserves, ?_⟩
    · rw [updateServingRequests, hm]
      simp only [Option.bind_eq_bind, Option.bind_some, hframe]
      rw [if_neg (by omega), hc]
      rfl
    · rw [hframe]
      refine step_children hlevel hlength hpos hchildren (fun i => haway) ?_ ?_
      · exact (updateServingRequests_frame hc).node.1.level.trans hclevel
      · rw [hself] at hcserves'
        exact hcserves'

/-- The first command of a request. -/
theorem start {spec : Spec} {id : Nat} (clk : Nat) (hin : InChannel spec id addr) (h : d.Serves served path)
    (hagree : addr.Agree (d.node.level.toNat + 1) path) :
    ∃ d', d.updateServingRequests addr 1 clk = some d' ∧ d'.Serves (addr :: served) path :=
  step (fun hn => hn.start) (fun hne => (away hne).mpr) hin h hagree

/-- The end of a request. -/
theorem stop {spec : Spec} {id : Nat} (clk : Nat) (hin : InChannel spec id addr)
    (h : d.Serves (addr :: served) path) (hagree : addr.Agree (d.node.level.toNat + 1) path) :
    ∃ d', d.updateServingRequests addr (-1) clk = some d' ∧ d'.Serves served path :=
  step (fun hn => hn.stop) (fun hne => (away hne).mp) hin h hagree

end Serves

end DRAM

end OnnxSim.Ram
