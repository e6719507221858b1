import OnnxSim.Lib.Recent
import OnnxSim.Ramulator.Hbm

/-!
# What the tree of a channel knows of the past

A node of the tree keeps a time for each command and a few of the last issues of each, and an update
passes a command to the node it is for, to the nodes above it and to the siblings of these. This is
enough: whatever has been issued, `check` says yes exactly when each entry of the timing tables that
concerns the command and the nodes it passes has been waited for (`DRAM.ready_iff_allowed`).
-/

namespace OnnxSim.Ram

open Recent

/-- A command that has been issued. -/
structure Issue where
  cmd : Command
  addr : AddrVec
  clk : Nat
  deriving DecidableEq

/-- When `c` has been issued to the node of `addr` at the level, the oldest first. -/
def issued (level : Level) (addr : AddrVec) (c : Command) (log : List Issue) : List Nat :=
  (log.filter fun e => e.cmd = c ∧ e.addr.Agree (level.toNat + 1) addr).map (·.clk)

/-- When `c` has been issued to a sibling of this node. -/
def beside (level : Level) (addr : AddrVec) (c : Command) (log : List Issue) : List Nat :=
  (log.filter fun e => e.cmd = c ∧ e.addr.Agree level.toNat addr ∧
    e.addr.get level.toNat ≠ addr.get level.toNat).map (·.clk)

/-- The issues of `c` that an entry of its table counts from: for siblings all, otherwise all but the
last `dist - 1`. -/
def binding (level : Level) (addr : AddrVec) (c : Command) (t : TimingEntry) (log : List Issue) :
    List Nat :=
  if t.sibling then beside level addr c log
  else (issued level addr c log).reverse.drop (t.dist - 1)

/-- The table of a level lets `cmd` be issued at time `b` to the node of `addr`. -/
def LevelAllows (spec : Spec) (log : List Issue) (level : Level) (cmd : Command) (addr : AddrVec)
    (b : Int) : Prop :=
  ∀ c, ∀ t ∈ spec.timing level c, t.cmd = cmd → ∀ past ∈ binding level addr c t log,
    past + t.val ≤ b

/-- The levels at which a command has to wait: down to its scope, and as far as its address goes. -/
def Reaches (spec : Spec) (cmd : Command) (addr : AddrVec) (level : Level) : Prop :=
  level.toNat ≤ Level.Bank.toNat ∧ level.toNat ≤ (spec.scope cmd).toNat ∧
    ∀ k, 0 < k → k ≤ level.toNat → 0 ≤ addr.get k

/-- After `log`, all tables let `cmd` be issued to `addr` at time `clk`. -/
def Allowed (spec : Spec) (log : List Issue) (cmd : Command) (addr : AddrVec) (clk : Nat) : Prop :=
  ∀ level, Reaches spec cmd addr level → LevelAllows spec log level cmd addr clk

/-- Each command of `log` was allowed after those before it. -/
def Legal (spec : Spec) (log : List Issue) : Prop :=
  ∀ before e after, log = before ++ e :: after → Allowed spec before e.cmd e.addr e.clk

variable {spec : Spec} {log : List Issue} {cmd c : Command} {addr path : AddrVec} {clk : Nat}
  {n : Node} {level : Level}

theorem AddrVec.Agree.succ_iff {k : Nat} {a b : AddrVec} :
    a.Agree (k + 1) b ↔ a.Agree k b ∧ a.get k = b.get k := by
  unfold AddrVec.Agree
  constructor
  · intro h
    exact ⟨fun i hi => h i (by omega), h k (by omega)⟩
  · rintro ⟨h, hlast⟩ i hi
    rcases Nat.lt_succ_iff_lt_or_eq.mp hi with hi | rfl
    · exact h i hi
    · exact hlast

theorem AddrVec.Agree.mono {k m : Nat} {a b : AddrVec} (h : a.Agree m b) (hle : k ≤ m) :
    a.Agree k b := fun i hi => h i (by omega)

/-! ## One more command -/

theorem issued_snoc (e : Issue) : issued level addr c (log ++ [e]) =
    issued level addr c log ++
      if e.cmd = c ∧ e.addr.Agree (level.toNat + 1) addr then [e.clk] else [] := by
  unfold issued
  rw [List.filter_append, List.map_append]
  congr 1
  by_cases h : e.cmd = c ∧ e.addr.Agree (level.toNat + 1) addr
  · rw [if_pos h, List.filter_singleton, decide_eq_true h]
    rfl
  · rw [if_neg h, List.filter_singleton, decide_eq_false h]
    rfl

theorem beside_snoc (e : Issue) : beside level addr c (log ++ [e]) =
    beside level addr c log ++
      if e.cmd = c ∧ e.addr.Agree level.toNat addr ∧ e.addr.get level.toNat ≠ addr.get level.toNat
      then [e.clk] else [] := by
  unfold beside
  rw [List.filter_append, List.map_append]
  congr 1
  by_cases h : e.cmd = c ∧ e.addr.Agree level.toNat addr ∧
      e.addr.get level.toNat ≠ addr.get level.toNat
  · rw [if_pos h, List.filter_singleton, decide_eq_true h]
    rfl
  · rw [if_neg h, List.filter_singleton, decide_eq_false h]
    rfl

/-- A command for a node that is neither this one nor a sibling. -/
theorem binding_away {e : Issue} (h : ¬ e.addr.Agree level.toNat addr) (t : TimingEntry) :
    binding level addr c t (log ++ [e]) = binding level addr c t log := by
  have hissued : ¬ (e.cmd = c ∧ e.addr.Agree (level.toNat + 1) addr) :=
    fun h' => h (h'.2.mono (Nat.le_succ _))
  have hbeside : ¬ (e.cmd = c ∧ e.addr.Agree level.toNat addr ∧
      e.addr.get level.toNat ≠ addr.get level.toNat) := fun h' => h h'.2.1
  unfold binding
  rw [issued_snoc, beside_snoc, if_neg hissued, if_neg hbeside, List.append_nil, List.append_nil]

/-- A command for a sibling. -/
theorem mem_binding_sibling {e : Issue} (h : e.addr.Agree level.toNat addr)
    (hne : e.addr.get level.toNat ≠ addr.get level.toNat) (t : TimingEntry) {past : Nat} :
    past ∈ binding level addr c t (log ++ [e]) ↔
      past ∈ binding level addr c t log ∨ t.sibling = true ∧ e.cmd = c ∧ past = e.clk := by
  have hissued : ¬ (e.cmd = c ∧ e.addr.Agree (level.toNat + 1) addr) :=
    fun h' => hne (AddrVec.Agree.succ_iff.mp h'.2).2
  unfold binding
  rw [issued_snoc, if_neg hissued, List.append_nil, beside_snoc]
  by_cases hsib : t.sibling = true
  · rw [if_pos hsib, if_pos hsib, List.mem_append]
    by_cases hc : e.cmd = c
    · simp [hc, h, hne, hsib]
    · simp [hc]
  · rw [if_neg hsib, if_neg hsib]
    simp [hsib]

/-- A command for the node itself. -/
theorem mem_binding_target {e : Issue} (h : e.addr.Agree (level.toNat + 1) addr) (t : TimingEntry)
    {past : Nat} :
    past ∈ binding level addr c t (log ++ [e]) ↔
      past ∈ binding level addr c t log ∨ t.sibling = false ∧ e.cmd = c ∧
        (issued level addr c log ++ [e.clk]).reverse[t.dist - 1]? = some past := by
  have hbeside : ¬ (e.cmd = c ∧ e.addr.Agree level.toNat addr ∧
      e.addr.get level.toNat ≠ addr.get level.toNat) :=
    fun h' => h'.2.2 (AddrVec.Agree.succ_iff.mp h).2
  unfold binding
  rw [beside_snoc, if_neg hbeside, List.append_nil, issued_snoc]
  by_cases hsib : t.sibling = true
  · rw [if_pos hsib, if_pos hsib]
    simp [hsib]
  · rw [if_neg hsib, if_neg hsib]
    by_cases hc : e.cmd = c
    · rw [if_pos ⟨hc, h⟩, mem_drop_push]
      simp only [Bool.not_eq_true] at hsib
      simp only [hsib, hc, true_and]
      exact or_comm
    · have hnot : ¬ (e.cmd = c ∧ e.addr.Agree (level.toNat + 1) addr) := fun h' => hc h'.1
      rw [if_neg hnot, List.append_nil]
      simp [hc]

/-! ## One node -/

namespace Node

@[simp] theorem raise_level (c : Command) (future : Int) : (n.raise c future).level = n.level := rfl

@[simp] theorem raise_id (c : Command) (future : Int) : (n.raise c future).id = n.id := rfl

@[simp] theorem raise_prev (c : Command) (future : Int) : (n.raise c future).prev = n.prev := rfl

theorem raise_next_le {future b : Int} {c' : Command} :
    (n.raise c' future).next c ≤ b ↔ n.next c ≤ b ∧ (c' = c → future ≤ b) := by
  unfold raise
  by_cases hc : c' = c
  · subst hc
    simp
  · simp [Function.update_of_ne (fun h : c = c' => hc h.symm), hc]

/-- Entries that say when a command may be issued next, or nothing, raise the times one by one. What
they look at is the history, which stays. -/
theorem foldl_raise (f : (Command → List Int) → TimingEntry → Option Int) (l : List TimingEntry)
    (n : Node) :
    let n' := l.foldl
      (fun n t => match f n.prev t with | some future => n.raise t.cmd future | none => n) n
    n'.level = n.level ∧ n'.id = n.id ∧ n'.prev = n.prev ∧ ∀ c b, n'.next c ≤ b ↔
      n.next c ≤ b ∧ ∀ t ∈ l, t.cmd = c → ∀ future, f n.prev t = some future → future ≤ b := by
  induction l generalizing n with
  | nil => simp
  | cons t l ih =>
    simp only [List.foldl_cons]
    cases hf : f n.prev t with
    | none =>
      obtain ⟨hlevel, hid, hprev, hnext⟩ := ih n
      refine ⟨hlevel, hid, hprev, fun c b => (hnext c b).trans ?_⟩
      simp [hf]
    | some future =>
      obtain ⟨hlevel, hid, hprev, hnext⟩ := ih (n.raise t.cmd future)
      refine ⟨hlevel, hid, hprev, fun c b => (hnext c b).trans ?_⟩
      rw [raise_next_le]
      simp [hf, and_assoc]

/-- What the loops over a table do not write. -/
theorem foldl_keeps {β : Type*} (f : Node → β) {g : Node → TimingEntry → Node}
    (hg : ∀ n t, f (g n t) = f n) (l : List TimingEntry) (n : Node) : f (l.foldl g n) = f n := by
  induction l generalizing n with
  | nil => rfl
  | cons t l ih => rw [List.foldl_cons, ih, hg]

/-- The fields that `update_timing` does not write. -/
def kept (n : Node) : (Level × Nat) × (State × List Int) × (Int × Int) :=
  ((n.level, n.id), (n.state, n.rowState), (n.curServingRequests, n.beginOfServing))

theorem sibling_kept (spec : Spec) (cmd : Command) (clk : Nat) (n : Node) :
    (n.sibling spec cmd clk).kept = n.kept := by
  refine foldl_keeps kept (fun n t => ?_) _ n
  split <;> rfl

theorem target_kept (spec : Spec) (cmd : Command) (clk : Nat) (n : Node) :
    (n.target spec cmd clk).kept = n.kept := by
  refine (foldl_keeps kept (fun n t => ?_) _ _).trans ?_
  · split
    · rfl
    · simp only
      split <;> rfl
  · unfold record
    split <;> rfl

/-- What a sibling of a target node takes from the table. -/
theorem sibling_spec (spec : Spec) (cmd : Command) (clk : Nat) (n : Node) :
    (n.sibling spec cmd clk).level = n.level ∧ (n.sibling spec cmd clk).id = n.id ∧
    (n.sibling spec cmd clk).prev = n.prev ∧ ∀ c b, (n.sibling spec cmd clk).next c ≤ b ↔
      n.next c ≤ b ∧ ∀ t ∈ spec.timing n.level cmd, t.cmd = c → t.sibling = true →
        (clk : Int) + t.val ≤ b := by
  have hfold := foldl_raise
    (fun _ t => if t.sibling then some ((clk : Int) + t.val) else none) (spec.timing n.level cmd) n
  have heq : n.sibling spec cmd clk = (spec.timing n.level cmd).foldl (fun n t =>
      match if t.sibling then some ((clk : Int) + t.val) else none with
      | some future => n.raise t.cmd future
      | none => n) n := by
    unfold sibling
    congr 1
    funext n t
    by_cases hsib : t.sibling = true
    · rw [if_pos hsib, if_pos hsib]
    · rw [if_neg hsib, if_neg hsib]
  rw [← heq] at hfold
  obtain ⟨hlevel, hid, hprev, hnext⟩ := hfold
  refine ⟨hlevel, hid, hprev, fun c b => (hnext c b).trans ?_⟩
  simp

/-- The time that an entry counts from, if there is one. -/
def past (history : List Int) (t : TimingEntry) : Option Int :=
  if t.sibling then none
  else if history.getD (t.dist - 1) (-1) < 0 then none
  else some (history.getD (t.dist - 1) (-1))

/-- What a target node takes from the table. -/
theorem target_spec (spec : Spec) (cmd : Command) (clk : Nat) (n : Node) :
    (n.target spec cmd clk).level = n.level ∧ (n.target spec cmd clk).id = n.id ∧
    (n.target spec cmd clk).prev = (n.record cmd clk).prev ∧
    ∀ c b, (n.target spec cmd clk).next c ≤ b ↔
      n.next c ≤ b ∧ ∀ t ∈ spec.timing n.level cmd, t.cmd = c → ∀ p,
        past ((n.record cmd clk).prev cmd) t = some p → p + t.val ≤ b := by
  have hfold := foldl_raise (fun prev t => (past (prev cmd) t).map (· + t.val))
    (spec.timing n.level cmd) (n.record cmd clk)
  have heq : n.target spec cmd clk = (spec.timing n.level cmd).foldl (fun n t =>
      match (past (n.prev cmd) t).map (· + t.val) with
      | some future => n.raise t.cmd future
      | none => n) (n.record cmd clk) := by
    unfold target
    congr 1
    funext n t
    unfold past
    by_cases hsib : t.sibling = true
    · rw [if_pos hsib, if_pos hsib]
      rfl
    · rw [if_neg hsib, if_neg hsib]
      by_cases hpast : (n.prev cmd).getD (t.dist - 1) (-1) < 0
      · simp only [if_pos hpast, Option.map_none]
      · simp only [if_neg hpast, Option.map_some]
  have hrecord : (n.record cmd clk).level = n.level ∧ (n.record cmd clk).id = n.id ∧
      (n.record cmd clk).next = n.next := by
    unfold record
    split <;> exact ⟨rfl, rfl, rfl⟩
  rw [← heq, hrecord.1, hrecord.2.1, hrecord.2.2] at hfold
  obtain ⟨hlevel, hid, hprev, hnext⟩ := hfold
  refine ⟨hlevel, hid, hprev, fun c b => (hnext c b).trans ?_⟩
  simp

end Node

/-- The places of the history of a command. -/
def Spec.depth (spec : Spec) (level : Level) (c : Command) : Nat :=
  ((spec.timing level c).map (·.dist)).foldl max 0

/-- What a node knows after `log`; `path` leads to it. -/
structure Node.Tracks (spec : Spec) (log : List Issue) (path : AddrVec) (n : Node) : Prop where
  id : (n.id : Int) = path.get n.level.toNat
  prev : ∀ c, n.prev c = recent (spec.depth n.level c) (-1)
    ((issued n.level path c log).map Nat.cast)
  next : ∀ c b, n.next c ≤ b ↔ -1 ≤ b ∧ LevelAllows spec log n.level c path b

theorem Spec.dist_le_depth {t : TimingEntry} (ht : t ∈ spec.timing level c) :
    t.dist ≤ spec.depth level c := by
  have hmax : ∀ (l : List Nat) (m : Nat), (∀ d ∈ l, d ≤ l.foldl max m) ∧ m ≤ l.foldl max m := by
    intro l
    induction l with
    | nil => simp
    | cons d l ih =>
      intro m
      obtain ⟨hmem, hle⟩ := ih (max m d)
      refine ⟨fun x hx => ?_, (Nat.le_max_left m d).trans hle⟩
      rcases List.mem_cons.mp hx with rfl | hx
      · exact (Nat.le_max_right m x).trans hle
      · exact hmem x hx
  exact (hmax _ 0).1 _ (List.mem_map_of_mem ht)

namespace Node.Tracks

/-- Before anything has been issued. -/
theorem init (spec : Spec) (level : Level) (id : Nat) (hpath : (id : Int) = path.get level.toNat) :
    (DRAM.newNode spec level id).Tracks spec [] path where
  id := hpath
  prev _ := by
    simp only [issued, List.filter_nil, List.map_nil, recent_nil]
    rfl
  next c b := by
    have hnone : LevelAllows spec [] level c path b := by
      intro a t _ _ past hpast
      simp [binding, beside, issued] at hpast
    simp only [DRAM.newNode, hnone, and_true]

/-- A command that is not for the node, its siblings and what is below them. -/
theorem away {e : Issue} (h : n.Tracks spec log path) (hne : ¬ e.addr.Agree n.level.toNat path) :
    n.Tracks spec (log ++ [e]) path where
  id := h.id
  prev c := by
    have hnot : ¬ (e.cmd = c ∧ e.addr.Agree (n.level.toNat + 1) path) :=
      fun h' => hne (h'.2.mono (Nat.le_succ _))
    rw [h.prev, issued_snoc, if_neg hnot, List.append_nil]
  next c b := by
    rw [h.next]
    simp only [LevelAllows, binding_away hne]

theorem sibling {e : Issue} (h : n.Tracks spec log path) (hagree : e.addr.Agree n.level.toNat path)
    (hne : (n.id : Int) ≠ e.addr.get n.level.toNat) :
    (n.sibling spec e.cmd e.clk).Tracks spec (log ++ [e]) path := by
  obtain ⟨hlevel, hid, hprev, hnext⟩ := sibling_spec spec e.cmd e.clk n
  have hne' : e.addr.get n.level.toNat ≠ path.get n.level.toNat := by
    rw [← h.id]
    exact Ne.symm hne
  refine ⟨by rw [hlevel, hid]; exact h.id, fun c => ?_, fun c b => ?_⟩
  · have hnot : ¬ (e.cmd = c ∧ e.addr.Agree (n.level.toNat + 1) path) :=
      fun h' => hne' (AddrVec.Agree.succ_iff.mp h'.2).2
    rw [hprev, hlevel, h.prev, issued_snoc, if_neg hnot, List.append_nil]
  · rw [hnext, h.next, hlevel]
    simp only [LevelAllows, mem_binding_sibling hagree hne']
    constructor
    · rintro ⟨⟨hb, hall⟩, hnew⟩
      refine ⟨hb, fun a t ht hc past hpast => ?_⟩
      rcases hpast with hpast | ⟨hsib, rfl, rfl⟩
      · exact hall a t ht hc past hpast
      · exact hnew t ht hc hsib
    · rintro ⟨hb, hall⟩
      exact ⟨⟨hb, fun a t ht hc past hpast => hall a t ht hc past (.inl hpast)⟩,
        fun t ht hc hsib => hall e.cmd t ht hc e.clk (.inr ⟨hsib, rfl, rfl⟩)⟩

/-- The history of a target node, with the new issue in front. -/
theorem record {e : Issue} (h : n.Tracks spec log path)
    (hagree : e.addr.Agree (n.level.toNat + 1) path) (c : Command) :
    (n.record e.cmd e.clk).prev c = recent (spec.depth n.level c) (-1)
      ((issued n.level path c (log ++ [e])).map Nat.cast) := by
  rw [issued_snoc]
  unfold Node.record
  by_cases hc : e.cmd = c
  · subst hc
    have hnew : e.cmd = e.cmd ∧ e.addr.Agree (n.level.toNat + 1) path := ⟨rfl, hagree⟩
    rw [if_pos hnew, List.map_append]
    by_cases hlength : (n.prev e.cmd).length = 0
    · have hdepth : spec.depth n.level e.cmd = 0 := by
        rw [h.prev, length_recent] at hlength
        exact hlength
      rw [if_pos hlength, h.prev, hdepth]
      simp [recent]
    · have hdepth : 0 < spec.depth n.level e.cmd := by
        rw [h.prev, length_recent] at hlength
        exact Nat.pos_of_ne_zero hlength
      rw [if_neg hlength]
      simp only [Function.update_self, List.map_cons, List.map_nil]
      rw [h.prev, recent_push hdepth]
  · have hnot : ¬ (e.cmd = c ∧ e.addr.Agree (n.level.toNat + 1) path) := fun h' => hc h'.1
    rw [if_neg hnot, List.append_nil, ← h.prev]
    split
    · rfl
    · exact Function.update_of_ne (fun h' => hc h'.symm) _ _

/-- The time an entry counts from is the one of `dist` issues ago. -/
theorem past_iff {e : Issue} (h : n.Tracks spec log path)
    (hagree : e.addr.Agree (n.level.toNat + 1) path) {t : TimingEntry}
    (ht : t ∈ spec.timing n.level e.cmd) {p : Int} :
    Node.past ((n.record e.cmd e.clk).prev e.cmd) t = some p ↔ t.sibling = false ∧ ∃ k : Nat,
      (issued n.level path e.cmd log ++ [e.clk]).reverse[t.dist - 1]? = some k ∧ p = k := by
  unfold Node.past
  by_cases hsib : t.sibling = true
  · simp [hsib]
  · have hplace : t.dist - 1 < spec.depth n.level e.cmd := by
      have hdist := (spec.timing_dist n.level e.cmd t ht (by simpa using hsib)).1
      have hle := spec.dist_le_depth ht
      omega
    have hnew : e.cmd = e.cmd ∧ e.addr.Agree (n.level.toNat + 1) path := ⟨rfl, hagree⟩
    rw [if_neg hsib, h.record hagree, recent_getD hplace, issued_snoc, if_pos hnew,
      ← List.map_reverse, List.getD_eq_getElem?_getD, List.getElem?_map]
    cases hk : (issued n.level path e.cmd log ++ [e.clk]).reverse[t.dist - 1]? with
    | none => simp
    | some k =>
      have hk0 : ¬ ((k : Int) < 0) := by omega
      simp only [Option.map_some, Option.getD_some, if_neg hk0, Option.some.injEq]
      constructor
      · rintro rfl
        exact ⟨by simpa using hsib, k, rfl, rfl⟩
      · rintro ⟨-, k', rfl, rfl⟩
        rfl

theorem target {e : Issue} (h : n.Tracks spec log path)
    (hagree : e.addr.Agree (n.level.toNat + 1) path) :
    (n.target spec e.cmd e.clk).Tracks spec (log ++ [e]) path := by
  obtain ⟨hlevel, hid, hprev, hnext⟩ := target_spec spec e.cmd e.clk n
  refine ⟨by rw [hlevel, hid]; exact h.id, fun c => ?_, fun c b => ?_⟩
  · rw [hprev, hlevel]
    exact h.record hagree c
  · rw [hnext, h.next, hlevel]
    simp only [LevelAllows, mem_binding_target hagree]
    constructor
    · rintro ⟨⟨hb, hall⟩, hnew⟩
      refine ⟨hb, fun a t ht hc past hpast => ?_⟩
      rcases hpast with hpast | ⟨hsib, rfl, hpast⟩
      · exact hall a t ht hc past hpast
      · exact hnew t ht hc past ((h.past_iff hagree ht).mpr ⟨hsib, past, hpast, rfl⟩)
    · rintro ⟨hb, hall⟩
      refine ⟨⟨hb, fun a t ht hc past hpast => hall a t ht hc past (.inl hpast)⟩, ?_⟩
      intro t ht hc p hp
      obtain ⟨hsib, past, hpast, rfl⟩ := (h.past_iff hagree ht).mp hp
      exact hall e.cmd t ht hc past (.inr ⟨hsib, rfl, hpast⟩)

/-- The test of `check` at a node. -/
theorem ready_iff (h : n.Tracks spec log path) :
    n.ready cmd clk = true ↔ LevelAllows spec log n.level cmd path clk := by
  have hle : n.ready cmd clk = true ↔ n.next cmd ≤ (clk : Int) := by
    unfold Node.ready
    simp only [Bool.not_eq_true', Bool.and_eq_false_imp, bne_iff_ne, decide_eq_false_iff_not, not_lt]
    constructor
    · intro himp
      by_cases hmin : n.next cmd = -1
      · omega
      · exact himp hmin
    · exact fun hle _ => hle
  rw [hle, h.next]
  exact and_iff_right (by omega)

theorem congr {m : Node} (h : n.Tracks spec log path)
    (hsame : m.SameTimes n) : m.Tracks spec log path :=
  ⟨by rw [hsame.level, hsame.id]; exact h.id, by rw [hsame.level, hsame.prev]; exact h.prev,
    by rw [hsame.level, hsame.next]; exact h.next⟩

/-- What it knows of a node holds of any address of the node. -/
theorem levelAllows_congr {a b : AddrVec} (h : a.Agree (level.toNat + 1) b) (x : Int) :
    LevelAllows spec log level cmd a x ↔ LevelAllows spec log level cmd b x := by
  have hagree : ∀ (e : AddrVec) (k : Nat), k ≤ level.toNat + 1 → (e.Agree k a ↔ e.Agree k b) := by
    intro e k hk
    refine forall₂_congr fun i hi => ?_
    rw [h i (by omega)]
  have hissued : ∀ c, issued level a c log = issued level b c log := by
    intro c
    unfold issued
    simp only [hagree _ _ le_rfl]
  have hbeside : ∀ c, beside level a c log = beside level b c log := by
    intro c
    unfold beside
    simp only [hagree _ _ (Nat.le_succ _), h _ (Nat.lt_succ_self _)]
  unfold LevelAllows binding
  simp only [hissued, hbeside]

end Node.Tracks

/-! ## The tree -/

namespace DRAM

variable {d d' : DRAM}

theorem transition_frame (spec : Spec) (cmd : Command) (addr : AddrVec) (d : DRAM) :
    (d.transition spec cmd addr).Lift (fun n m => n.SameTimes m ∧ n.SameServing m) d := by
  unfold transition
  split
  · rename_i f hf
    exact spec.lambda_frame hf d _
  · exact .refl (fun n => ⟨.refl n, .refl n⟩) d

/-- Changes of state leave the times and the requests served as they are. -/
theorem updateState_frame (spec : Spec) (cmd : Command) (addr : AddrVec) (levels : Nat) (d : DRAM) :
    (d.updateState spec cmd addr levels).Lift (fun n m => n.SameTimes m ∧ n.SameServing m) d := by
  have htrans : ∀ a b c : Node, a.SameTimes b ∧ a.SameServing b → b.SameTimes c ∧ b.SameServing c →
      a.SameTimes c ∧ a.SameServing c := fun a b c h h' => ⟨h.1.trans h'.1, h.2.trans h'.2⟩
  induction levels generalizing d with
  | zero => exact transition_frame spec cmd addr d
  | succ levels ih =>
    have hfirst := transition_frame spec cmd addr d
    unfold updateState
    generalize d.transition spec cmd addr = t at hfirst
    cases t with
    | leaf n => exact hfirst
    | branch n size children =>
      simp only
      split
      · exact hfirst
      · refine Lift.trans (.branch ⟨.refl n, .refl n⟩ fun i => ?_) hfirst htrans
        by_cases hi : i = (addr.get (n.level.toNat + 1)).toNat
        · subst hi
          rw [Function.update_self]
          exact ih _
        · rw [Function.update_of_ne hi]
          exact .refl (fun n => ⟨.refl n, .refl n⟩) _

/-- What the nodes of a tree know after `log`. The banks are the leaves. -/
def Tracks (spec : Spec) (log : List Issue) : DRAM → AddrVec → Prop
  | leaf n, path => n.level = .Bank ∧ path.length = n.level.toNat + 1 ∧ n.Tracks spec log path
  | branch n _ children, path => n.level.toNat < Level.Bank.toNat ∧
      path.length = n.level.toNat + 1 ∧ n.Tracks spec log path ∧
      ∀ i : Nat, (children i).node.level = n.level.child ∧ Tracks spec log (children i) (path ++ [(i : Int)])

theorem get_append_of_lt {k : Nat} (hk : k < path.length) (x : Int) :
    AddrVec.get (path ++ [x]) k = path.get k := by
  unfold AddrVec.get
  rw [List.getD_eq_getElem?_getD, List.getD_eq_getElem?_getD, List.getElem?_append_left hk]

theorem get_append_self (path : AddrVec) (x : Int) : AddrVec.get (path ++ [x]) path.length = x := by
  unfold AddrVec.get
  simp

theorem agree_append (hlength : path.length = level.toNat + 1) (x : Int) :
    addr.Agree (level.toNat + 2) (path ++ [x]) ↔
      addr.Agree (level.toNat + 1) path ∧ addr.get (level.toNat + 1) = x := by
  rw [AddrVec.Agree.succ_iff]
  have hself := get_append_self path x
  rw [hlength] at hself
  rw [hself]
  refine and_congr_left fun _ => forall₂_congr fun k hk => ?_
  rw [get_append_of_lt (by omega)]

theorem agree_append_le (hlength : path.length = level.toNat + 1) (x : Int) :
    addr.Agree (level.toNat + 1) (path ++ [x]) ↔ addr.Agree (level.toNat + 1) path := by
  refine forall₂_congr fun k hk => ?_
  rw [get_append_of_lt (by omega)]

theorem child_toNat {level : Level} (h : level.toNat < Level.Bank.toNat) :
    level.child.toNat = level.toNat + 1 := by
  cases level <;> simp_all [Level.toNat, Level.child]

theorem Tracks.congr (h : d.Tracks spec log path) (hsame : d'.Lift Node.SameTimes d) :
    d'.Tracks spec log path := by
  induction hsame generalizing path with
  | leaf node =>
    obtain ⟨hlevel, hlength, hn⟩ := h
    exact ⟨node.level.trans hlevel, by rw [node.level]; exact hlength, hn.congr node⟩
  | branch node children ih =>
    obtain ⟨hlevel, hlength, hn, hchildren⟩ := h
    refine ⟨by rw [node.level]; exact hlevel, by rw [node.level]; exact hlength, hn.congr node, ?_⟩
    intro i
    obtain ⟨hchild, htracks⟩ := hchildren i
    exact ⟨by rw [(children i).node.level, node.level]; exact hchild, ih i htracks⟩

/-- `check` looks at nothing but times. -/
theorem check_lift (hsame : d'.Lift Node.SameTimes d) :
    d'.check spec cmd addr clk = d.check spec cmd addr clk := by
  have hready : ∀ {n m : Node}, n.SameTimes m → n.ready cmd clk = m.ready cmd clk := by
    intro n m h
    unfold Node.ready
    rw [h.next]
  induction hsame with
  | leaf node => exact hready node
  | branch node children ih =>
    unfold check
    simp only [hready node, node.level, ih]

/-- A command for elsewhere. -/
theorem Tracks.away {e : Issue} (h : d.Tracks spec log path)
    (hne : ¬ e.addr.Agree d.node.level.toNat path) : d.Tracks spec (log ++ [e]) path := by
  induction d generalizing path with
  | leaf n =>
    obtain ⟨hlevel, hlength, hn⟩ := h
    exact ⟨hlevel, hlength, hn.away hne⟩
  | branch n size children ih =>
    obtain ⟨hlevel, hlength, hn, hchildren⟩ := h
    refine ⟨hlevel, hlength, hn.away hne, fun i => ?_⟩
    obtain ⟨hchild, htracks⟩ := hchildren i
    refine ⟨hchild, ih i htracks fun hagree => hne ?_⟩
    rw [hchild, child_toNat hlevel, agree_append_le hlength] at hagree
    exact hagree.mono (Nat.le_succ _)

/-- Times are all that `update_timing` writes. -/
theorem updateTiming_kept (spec : Spec) (cmd : Command) (addr : AddrVec) (clk : Nat) (d : DRAM) :
    (d.updateTiming spec cmd addr clk).Lift (fun n m => n.kept = m.kept) d := by
  induction d with
  | leaf n =>
    unfold updateTiming
    split
    · exact .leaf (Node.sibling_kept spec cmd clk n)
    · exact .leaf (Node.target_kept spec cmd clk n)
  | branch n size children ih =>
    unfold updateTiming
    split
    · exact .branch (Node.sibling_kept spec cmd clk n) fun i =>
        .refl (R := fun n m => n.kept = m.kept) (fun _ => rfl) (children i)
    · exact .branch (Node.target_kept spec cmd clk n) ih

theorem updateTiming_level (spec : Spec) (cmd : Command) (addr : AddrVec) (clk : Nat) (d : DRAM) :
    (d.updateTiming spec cmd addr clk).node.level = d.node.level :=
  congrArg (·.1.1) (updateTiming_kept spec cmd addr clk d).node

/-- A command for a node of the tree, or for one whose parent the tree's root has too. -/
theorem Tracks.updateTiming {e : Issue} (h : d.Tracks spec log path)
    (hagree : e.addr.Agree d.node.level.toNat path) :
    (d.updateTiming spec e.cmd e.addr e.clk).Tracks spec (log ++ [e]) path := by
  induction d generalizing path with
  | leaf n =>
    obtain ⟨hlevel, hlength, hn⟩ := h
    unfold DRAM.updateTiming
    split
    · rename_i hne
      have hspec := (Node.sibling_spec spec e.cmd e.clk n).1
      exact ⟨hspec.trans hlevel, by rw [hspec]; exact hlength, hn.sibling hagree hne⟩
    · rename_i heq
      have hspec := (Node.target_spec spec e.cmd e.clk n).1
      refine ⟨hspec.trans hlevel, by rw [hspec]; exact hlength, hn.target ?_⟩
      refine AddrVec.Agree.succ_iff.mpr ⟨hagree, ?_⟩
      rw [← hn.id]
      exact (not_not.mp heq).symm
  | branch n size children ih =>
    obtain ⟨hlevel, hlength, hn, hchildren⟩ := h
    unfold DRAM.updateTiming
    split
    · rename_i hne
      have hspec := (Node.sibling_spec spec e.cmd e.clk n).1
      refine ⟨by rw [hspec]; exact hlevel, by rw [hspec]; exact hlength, hn.sibling hagree hne, ?_⟩
      intro i
      obtain ⟨hchild, htracks⟩ := hchildren i
      refine ⟨by rw [hspec]; exact hchild, htracks.away fun hagree' => hne ?_⟩
      rw [hchild, child_toNat hlevel, agree_append_le hlength] at hagree'
      rw [hn.id]
      exact (hagree' _ (Nat.lt_succ_self _)).symm
    · rename_i heq
      have hspec := (Node.target_spec spec e.cmd e.clk n).1
      have hagree' : e.addr.Agree (n.level.toNat + 1) path := by
        refine AddrVec.Agree.succ_iff.mpr ⟨hagree, ?_⟩
        rw [← hn.id]
        exact (not_not.mp heq).symm
      refine ⟨by rw [hspec]; exact hlevel, by rw [hspec]; exact hlength, hn.target hagree', ?_⟩
      intro i
      obtain ⟨hchild, htracks⟩ := hchildren i
      refine ⟨by rw [hspec, updateTiming_level]; exact hchild, ih i htracks ?_⟩
      rw [hchild, child_toNat hlevel, agree_append_le hlength]
      exact hagree'

theorem Tracks.update {e : Issue} (h : d.Tracks spec log path)
    (hagree : e.addr.Agree d.node.level.toNat path) :
    (d.update spec e.cmd e.addr e.clk).Tracks spec (log ++ [e]) path := by
  have hsame := (updateState_frame spec e.cmd e.addr levels d).mono fun _ _ => And.left
  unfold DRAM.update
  exact (h.congr hsame).updateTiming (by rw [hsame.node.level]; exact hagree)

theorem Level.eq_of_toNat {a b : Level} (h : a.toNat = b.toNat) : a = b := by
  cases a <;> cases b <;> first | rfl | cases h

theorem Tracks.new (hcount : ∀ level : Level, level.toNat ≤ Level.Bank.toNat → spec.count level ≠ 0)
    {levels : Nat} {id : Nat} (hlevel : level.toNat ≤ Level.Bank.toNat)
    (hlevels : Level.Bank.toNat ≤ level.toNat + levels) (hlength : path.length = level.toNat + 1)
    (hid : (id : Int) = path.get level.toNat) : (DRAM.new spec levels level id).Tracks spec [] path := by
  induction levels generalizing level path id with
  | zero =>
    have hbank : level = .Bank := Level.eq_of_toNat (by omega)
    exact ⟨hbank, hlength, .init spec level id hid⟩
  | succ levels ih =>
    unfold DRAM.new
    split
    · rename_i hstop
      have hbank : level = .Bank := by
        cases level <;> simp_all [Level.child, Level.toNat]
      exact ⟨hbank, hlength, .init spec level id hid⟩
    · rename_i hgo
      have hlt : level.toNat < Level.Bank.toNat := by
        cases level <;> simp_all [Level.child, Level.toNat]
      have hchild := child_toNat hlt
      refine ⟨hlt, hlength, .init spec level id hid, fun i => ⟨?_, ?_⟩⟩
      · cases levels with
        | zero => rfl
        | succ levels =>
          unfold DRAM.new
          split <;> rfl
      · refine ih (by omega) (by omega) (by rw [List.length_append, hlength, hchild]; rfl) ?_
        rw [hchild, ← hlength, get_append_self]

/-- `check` says what the tables say of the commands issued so far, from the tree's root on. -/
theorem Tracks.check_iff (h : d.Tracks spec log path)
    (hagree : addr.Agree (d.node.level.toNat + 1) path) (hreach : Reaches spec cmd addr d.node.level) :
    d.check spec cmd addr clk = true ↔ ∀ level, d.node.level.toNat ≤ level.toNat →
      Reaches spec cmd addr level → LevelAllows spec log level cmd addr clk := by
  induction d generalizing path with
  | leaf n =>
    obtain ⟨hlevel, hlength, hn⟩ := h
    change addr.Agree (n.level.toNat + 1) path at hagree
    change n.ready cmd clk = true ↔ _
    rw [hn.ready_iff, ← Node.Tracks.levelAllows_congr hagree]
    constructor
    · intro hallows level hle hreach'
      have heq : level = n.level :=
        Level.eq_of_toNat (le_antisymm (by rw [hlevel]; exact hreach'.1) hle)
      rw [heq]
      exact hallows
    · exact fun hall => hall n.level le_rfl hreach
  | branch n size children ih =>
    obtain ⟨hlevel, hlength, hn, hchildren⟩ := h
    change addr.Agree (n.level.toNat + 1) path at hagree
    change Reaches spec cmd addr n.level at hreach
    have hhere : n.ready cmd clk = true ↔ LevelAllows spec log n.level cmd addr clk := by
      rw [hn.ready_iff, ← Node.Tracks.levelAllows_congr hagree]
    unfold check
    by_cases hready : n.ready cmd clk = true
    · rw [if_pos hready]
      have hallows := hhere.mp hready
      by_cases hstop : addr.get (n.level.toNat + 1) < 0 ∨ n.level = spec.scope cmd
      · simp only [if_pos hstop, true_iff]
        intro level hle hreach'
        rcases Nat.eq_or_lt_of_le hle with heq | hlt
        · rw [← Level.eq_of_toNat heq]
          exact hallows
        · rcases hstop with hneg | hscope
          · have hpos := hreach'.2.2 (n.level.toNat + 1) (by omega) hlt
            omega
          · have hle' := hreach'.2.1
            change n.level.toNat < level.toNat at hlt
            rw [← hscope] at hle'
            omega
      · simp only [if_neg hstop]
        obtain ⟨hnonneg, hscope⟩ := not_or.mp hstop
        have hid : ((addr.get (n.level.toNat + 1)).toNat : Int) = addr.get (n.level.toNat + 1) :=
          Int.toNat_of_nonneg (by omega)
        obtain ⟨hchild, htracks⟩ := hchildren (addr.get (n.level.toNat + 1)).toNat
        have hnext : (children (addr.get (n.level.toNat + 1)).toNat).node.level.toNat =
            n.level.toNat + 1 := by rw [hchild, child_toNat hlevel]
        have hbelow : n.level.toNat < (spec.scope cmd).toNat :=
          lt_of_le_of_ne hreach.2.1 fun h => hscope (Level.eq_of_toNat h)
        have hrest := ih (addr.get (n.level.toNat + 1)).toNat htracks
          (by rw [hnext, agree_append hlength]; exact ⟨hagree, hid.symm⟩)
          ⟨by omega, by omega, fun k hk hle => by
            rw [hnext] at hle
            rcases Nat.lt_succ_iff_lt_or_eq.mp (Nat.lt_succ_of_le hle) with hlt | rfl
            · exact hreach.2.2 k hk (Nat.le_of_lt_succ hlt)
            · omega⟩
        rw [hrest, hnext]
        constructor
        · intro hall level hle hreach'
          rcases Nat.eq_or_lt_of_le hle with heq | hlt
          · rw [← Level.eq_of_toNat heq]
            exact hallows
          · exact hall level hlt hreach'
        · exact fun hall level hle hreach' => hall level ((Nat.le_succ _).trans hle) hreach'
    · rw [if_neg hready]
      simp only [Bool.false_eq_true, false_iff]
      exact fun hall => hready (hhere.mpr (hall n.level le_rfl hreach))

/-- The tree of channel `id` after some commands. -/
def after (spec : Spec) (id : Nat) (log : List Issue) : DRAM :=
  log.foldl (fun d e => d.update spec e.cmd e.addr e.clk) (DRAM.new spec levels .Channel id)

theorem Tracks.after (hcount : ∀ level : Level, level.toNat ≤ Level.Bank.toNat → spec.count level ≠ 0)
    (id : Nat) (log : List Issue) :
    (DRAM.after spec id log).Tracks spec log [(id : Int)] ∧
      (DRAM.after spec id log).node.level = .Channel := by
  induction log using List.reverseRecOn with
  | nil =>
    refine ⟨.new hcount (Nat.zero_le _) ?_ rfl rfl, ?_⟩
    · decide
    · change (DRAM.new spec levels .Channel id).node.level = _
      unfold levels DRAM.new
      split <;> rfl
  | append_singleton log e ih =>
    obtain ⟨htracks, hlevel⟩ := ih
    have heq : DRAM.after spec id (log ++ [e]) =
        (DRAM.after spec id log).update spec e.cmd e.addr e.clk := by
      unfold DRAM.after
      rw [List.foldl_append]
      rfl
    rw [heq]
    refine ⟨htracks.update (by rw [hlevel]; exact fun k hk => absurd hk (Nat.not_lt_zero k)), ?_⟩
    unfold DRAM.update
    rw [updateTiming_level, (updateState_frame ..).node.1.level, hlevel]

/-- Whatever commands have been issued, a command is ready exactly when every entry of the tables has
been waited for. -/
theorem ready_iff_allowed (hcount : ∀ level : Level, level.toNat ≤ Level.Bank.toNat → spec.count level ≠ 0)
    (id : Nat) (log : List Issue) (hid : addr.get 0 = id) :
    (DRAM.after spec id log).check spec cmd addr clk = true ↔ Allowed spec log cmd addr clk := by
  obtain ⟨htracks, hlevel⟩ := Tracks.after hcount id log
  rw [htracks.check_iff]
  · simp only [hlevel]
    exact forall_congr' fun level => forall_prop_of_true (Nat.zero_le _)
  · rw [hlevel]
    intro k hk
    obtain rfl : k = 0 := Nat.lt_one_iff.mp hk
    exact hid
  · rw [hlevel]
    exact ⟨Nat.zero_le _, Nat.zero_le _, fun k hk hle => absurd hle (by simpa [Level.toNat] using hk.ne')⟩

/-- A read seven cycles after the activation of its row, and not before. -/
theorem ready_iff_allowed_act :
    let spec := HBM.spec .HBM_1Gb .HBM_1Gbps 1 1
    let log : List Issue := [⟨.ACT, [0, 0, 0, 0, 5, 0], 1⟩]
    (after spec 0 log).check spec .RD [0, 0, 0, 0, 5, 0] 7 = false ∧
      (after spec 0 log).check spec .RD [0, 0, 0, 0, 5, 0] 8 = true ∧
      ((after spec 0 log).check spec .RD [0, 0, 0, 0, 5, 0] 8 = true ↔
        Allowed spec log .RD [0, 0, 0, 0, 5, 0] 8) := by
  refine ⟨by decide +kernel, by decide +kernel, ready_iff_allowed (fun level hle => ?_) 0 _ rfl⟩
  cases level with
  | Channel => decide
  | Rank => decide
  | BankGroup => decide
  | Bank => decide
  | Row => exact absurd hle (by decide)
  | Column => exact absurd hle (by decide)

end DRAM

end OnnxSim.Ram
