import Pmemcpy.Hashtable.Interference

/-!
# Any number of clients, any interleaving

The invariant of the system puts the assertions of all its clients together: the
pool is in order, every client stands on what it relies on, and its log is a run
of its own abstract account. The steps that take an entry from under a walk are
the only ones that break it.
-/

namespace Pmemcpy

open Lib PMDKHashtableStorage

namespace System

variable {κ : Type*} {hash : Bytes → ℕ} {owns : κ → Set Bytes} {σ σ' : System κ}
  {k j : κ} {τ₀ τ : Stacks} {result : PMDKHashtableStorage × Progress} {m : κ × Action} {n : ℕ}

/-- The entries that `POBJ_FREE` has cleared and that are still linked. -/
def freed (σ : System κ) : Set PMEMoid := {o | ∃ k, (σ.clients k).pc.removes = some o}

/-- The blocks that the clients other than `k` have ready. -/
def pendingBut (σ : System κ) (k : κ) : Set PMEMoid :=
  {d | ∃ j, j ≠ k ∧ (σ.clients j).pc.pending = some d}

/-- The client `k` can rely on what it saw, and is within `n` steps of the end of its call. -/
def Within (hash : Bytes → ℕ) (owns : κ → Set Bytes) (σ : System κ) (k : κ) (n : ℕ) : Prop :=
  (σ.clients k).pc.Ok hash σ.storage.pool σ.freed (owns k) n

/-- The invariant of the system: every client can rely on what it saw, and its
replies are those of its own account. -/
structure Consistent (hash : Bytes → ℕ) (owns : κ → Set Bytes) (τ₀ : Stacks) (σ : System κ) :
    Prop where
  pool : σ.storage.pool.Wf hash σ.freed
  nbuckets : σ.storage.nbuckets = σ.storage.pool.nbuckets
  ok : ∀ k, ∃ n, σ.Within hash owns k n
  apart : ∀ j k d, (σ.clients j).pc.pending = some d → (σ.clients k).pc.pending = some d → j = k
  account : ∀ k, ∃ τ, Run (OwnStep (owns k)) τ₀ (σ.clients k).log τ ∧
    (σ.clients k).pc.Sees hash σ.storage.pool (owns k) τ

/-- The entry that a client is about to remove is the first one of one of its ids. -/
theorem Consistent.removes (h : Consistent hash owns τ₀ σ) {o : PMEMoid}
    (hremoves : (σ.clients k).pc.removes = some o) :
    ∃ id ∈ owns k, σ.storage.pool.Foremost hash id o := by
  obtain ⟨n, hok⟩ := h.ok k
  rw [Within] at hok
  cases hpc : (σ.clients k).pc with
  | removing id oid =>
    rw [hpc] at hremoves hok
    obtain rfl : oid = o := by simpa [Pc.removes] using hremoves
    exact ⟨id, hok.2.1, hok.2.2.1⟩
  | _ => simp [hpc, Pc.removes] at hremoves

/-- No two clients are about to remove the same entry. -/
theorem Consistent.removes_inj (h : Consistent hash owns τ₀ σ) (hsep : Separate owns)
    {o : PMEMoid} (hj : (σ.clients j).pc.removes = some o)
    (hk : (σ.clients k).pc.removes = some o) : j = k := by
  obtain ⟨id, hid, hfirst⟩ := h.removes hj
  obtain ⟨id', hid', hfirst'⟩ := h.removes hk
  by_cases heq : id = id'
  · subst heq
    exact hsep.disjoint j k id hid hid'
  · exact absurd rfl (h.pool.foremost_ne hfirst hfirst' (hsep.storable j id hid).nulFree heq)

/-- When its turn comes, a client finds what it relies on. -/
theorem Consistent.turn (h : Consistent hash owns τ₀ σ) (hsep : Separate owns)
    (hok : σ.Within hash owns k n)
    (hsees : (σ.clients k).pc.Sees hash σ.storage.pool (owns k) τ) :
    Turn hash (owns k) (σ.pendingBut k) σ.freed σ.storage τ n (σ.clients k).pc where
  pool := h.pool
  nbuckets := h.nbuckets
  storable := hsep.storable k
  ok := hok
  sees := hsees
  allocated := by
    rintro d ⟨j, _, hd⟩
    obtain ⟨n, hok⟩ := h.ok j
    rw [Within] at hok
    cases hpc : (σ.clients j).pc with
    | inserting id src data =>
      rw [hpc] at hd hok
      obtain rfl : data = d := by simpa [Pc.pending] using hd
      simp [hok.2.2.block]
    | _ => simp [hpc, Pc.pending] at hd
  apart := by
    rintro d hd ⟨j, hne, hd'⟩
    exact hne (h.apart j k d hd' hd)
  cleared := by
    rintro o ⟨j, hj⟩
    by_cases hjk : j = k
    · exact Or.inl (hjk ▸ hj)
    · obtain ⟨id, hid, hfirst⟩ := h.removes hj
      exact Or.inr ⟨id, fun hmem => hjk (hsep.disjoint j k id hid hmem), hfirst⟩

/-- A removal leaves the clients alone that do not stand on its entry. -/
theorem observe_eq {c : Client} {removed : Option PMEMoid}
    (h : ∀ o, removed = some o → c.pc.standsOn ≠ some o) : c.observe removed = c := by
  obtain ⟨pc, log⟩ := c
  cases removed with
  | none => rfl
  | some o =>
    have hstands := h o rfl
    rw [Client.observe]
    congr 1
    cases pc with
    | walking use id cursor =>
      cases cursor with
      | dangling => rfl
      | on oid =>
        have hne : oid ≠ o := by
          rintro rfl
          exact hstands rfl
        exact if_neg hne
    | _ => rfl

variable [DecidableEq κ]

/-- A careful step of one client leaves the others where they were. -/
theorem after_other (hcareful : ¬σ.RemovesUnderWalk k) (hj : j ≠ k) :
    (σ.after k result).clients j = σ.clients j := by
  rw [after]
  dsimp only
  rw [if_neg hj]
  apply observe_eq
  intro o ho hstands
  exact hcareful ⟨o, j, hj, ho, hstands⟩

/-- The client that takes a step is where the step leads it. -/
theorem after_self : ((σ.after k result).clients k).pc = result.2.pc := by
  rw [after]
  dsimp only
  rw [if_pos rfl]
  cases result.2 <;> rfl

/-- A careful step changes the cleared entries by those of the client that takes it. -/
theorem Consistent.freed_after (h : Consistent hash owns τ₀ σ) (hsep : Separate owns)
    (hcareful : ¬σ.RemovesUnderWalk k) :
    (σ.after k result).freed =
      freedAfter σ.freed (σ.clients k).pc.removes result.2.pc.removes := by
  ext o
  constructor
  · rintro ⟨j, hj⟩
    by_cases hjk : j = k
    · subst hjk
      rw [after_self] at hj
      exact Or.inr hj
    · rw [after_other hcareful hjk] at hj
      exact Or.inl ⟨⟨j, hj⟩, fun hk => hjk (h.removes_inj hsep hj hk)⟩
  · rintro (⟨⟨j, hj⟩, hk⟩ | hafter)
    · have hjk : j ≠ k := by
        rintro rfl
        exact hk hj
      exact ⟨j, by rw [after_other hcareful hjk]; exact hj⟩
    · exact ⟨k, by rw [after_self]; exact hafter⟩

/-- A careful step of one client keeps what the others rely on. -/
theorem Consistent.within_after_other (h : Consistent hash owns τ₀ σ) (hsep : Separate owns)
    (hcareful : ¬σ.RemovesUnderWalk k) {n' : ℕ}
    (hout : Outcome hash (owns k) (σ.pendingBut k) σ.freed σ.storage τ n' (σ.clients k).pc result)
    (hj : j ≠ k) (hok : σ.Within hash owns j n) : (σ.after k result).Within hash owns j n := by
  obtain ⟨id, hid, heffect⟩ := hout.effect
  rw [Within, h.freed_after hsep hcareful, after_other hcareful hj]
  refine hok.other heffect h.pool (hsep.storable k id hid).nulFree ?_ ?_ ?_
  · intro hmem
    exact hj (hsep.disjoint j k id hmem hid)
  · intro d hd
    exact ⟨j, hj, hd⟩
  · intro o hstands hremoves
    exact hcareful ⟨o, j, hj, hremoves, hstands⟩

/-- A careful step of a client brings this client to where it leads. -/
theorem Consistent.within_after_self (h : Consistent hash owns τ₀ σ) (hsep : Separate owns)
    (hcareful : ¬σ.RemovesUnderWalk k)
    (hout : Outcome hash (owns k) (σ.pendingBut k) σ.freed σ.storage τ n (σ.clients k).pc result) :
    (σ.after k result).Within hash owns k n := by
  rw [Within, h.freed_after hsep hcareful, after_self]
  exact hout.ok

/-- A careful step keeps the invariant. -/
theorem Consistent.after (h : Consistent hash owns τ₀ σ) (hsep : Separate owns)
    (hcareful : ¬σ.RemovesUnderWalk k)
    (hlog : Run (OwnStep (owns k)) τ₀ (σ.clients k).log τ)
    (hout : Outcome hash (owns k) (σ.pendingBut k) σ.freed σ.storage τ n (σ.clients k).pc result) :
    Consistent hash owns τ₀ (σ.after k result) := by
  obtain ⟨id, hid, heffect⟩ := hout.effect
  have hnul := (hsep.storable k id hid).nulFree
  refine ⟨?_, ?_, ?_, ?_, ?_⟩
  · rw [h.freed_after hsep hcareful]
    exact heffect.wf h.pool
  · change result.1.nbuckets = result.1.pool.nbuckets
    rw [hout.nbuckets, heffect.nbuckets, h.nbuckets]
  · intro j
    by_cases hj : j = k
    · subst hj
      exact ⟨n, h.within_after_self hsep hcareful hout⟩
    · obtain ⟨n', hok⟩ := h.ok j
      exact ⟨n', h.within_after_other hsep hcareful hout hj hok⟩
  · intro i j d hi hj
    by_cases hik : i = k <;> by_cases hjk : j = k
    · rw [hik, hjk]
    · subst hik
      rw [after_self] at hi
      rw [after_other hcareful hjk] at hj
      exact absurd ⟨j, hjk, hj⟩ (hout.apart d hi)
    · subst hjk
      rw [after_self] at hj
      rw [after_other hcareful hik] at hi
      exact absurd ⟨i, hik, hi⟩ (hout.apart d hj)
    · rw [after_other hcareful hik] at hi
      rw [after_other hcareful hjk] at hj
      exact h.apart i j d hi hj
  · intro j
    by_cases hj : j = k
    · subst hj
      obtain ⟨τ', haccount, hsees⟩ := hout.account
      refine ⟨τ', ?_, by rw [after_self]; exact hsees⟩
      have hclient : (σ.after j result).clients j = (σ.clients j).advance result.2 := if_pos rfl
      rw [hclient]
      cases hprogress : result.2 with
      | next pc =>
        rw [hprogress] at haccount
        obtain rfl : τ' = τ := haccount
        exact hlog
      | returns c =>
        rw [hprogress] at haccount
        exact hlog.snoc haccount
    · obtain ⟨τ', hrun, hsees⟩ := h.account j
      rw [after_other hcareful hj]
      refine ⟨τ', hrun, hsees.other heffect h.pool hnul ?_⟩
      intro hmem
      exact hj (hsep.disjoint j k id hmem hid)

/-- What a step of the system leads to, for the client that takes it. -/
theorem Consistent.outcome (h : Consistent hash owns τ₀ σ) (hsep : Separate owns)
    (hstep : σ.Step hash owns m σ') (hok : σ.Within hash owns m.1 n)
    (hsees : (σ.clients m.1).pc.Sees hash σ.storage.pool (owns m.1) τ) :
    ∃ result n', σ' = σ.after m.1 result ∧
      Outcome hash (owns m.1) (σ.pendingBut m.1) σ.freed σ.storage τ n' (σ.clients m.1).pc result ∧
      ((∃ answer, m.2 = .tick answer) → 0 < n ∧ n' = n - 1) := by
  have hturn := h.turn hsep hok hsees
  cases hstep with
  | call hidle hid hanswer =>
    rw [hidle] at hturn
    obtain ⟨n', hout⟩ := hturn.begin hid hanswer
    rw [← hidle] at hout
    exact ⟨_, n', rfl, hout, by rintro ⟨answer, ⟨⟩⟩⟩
  | tick hpc hanswer =>
    obtain ⟨hpos, hout⟩ := hturn.tick hpc hanswer
    exact ⟨_, n - 1, rfl, hout, fun _ => ⟨hpos, rfl⟩⟩

/-- Every careful step keeps the invariant. -/
theorem Consistent.step (h : Consistent hash owns τ₀ σ) (hsep : Separate owns)
    (hstep : CarefulStep hash owns σ m σ') : Consistent hash owns τ₀ σ' := by
  obtain ⟨n, hok⟩ := h.ok m.1
  obtain ⟨τ, hlog, hsees⟩ := h.account m.1
  obtain ⟨result, n', rfl, hout, _⟩ := h.outcome hsep hstep.1 hok hsees
  exact h.after hsep hstep.2 hlog hout

/-- A step of a client within its call, however it comes out, brings its end nearer. -/
theorem Consistent.within_tick (h : Consistent hash owns τ₀ σ) (hsep : Separate owns)
    {answer : Option Allocation} (hstep : CarefulStep hash owns σ (k, .tick answer) σ')
    (hok : σ.Within hash owns k n) : 0 < n ∧ σ'.Within hash owns k (n - 1) := by
  obtain ⟨τ, hlog, hsees⟩ := h.account k
  obtain ⟨result, n', rfl, hout, hnear⟩ := h.outcome hsep hstep.1 hok hsees
  obtain ⟨hpos, rfl⟩ := hnear ⟨answer, rfl⟩
  exact ⟨hpos, h.within_after_self hsep hstep.2 hout⟩

/-- No step of another client takes it farther away. -/
theorem Consistent.within_other (h : Consistent hash owns τ₀ σ) (hsep : Separate owns)
    (hstep : CarefulStep hash owns σ m σ') (hk : k ≠ m.1) (hok : σ.Within hash owns k n) :
    σ'.Within hash owns k n := by
  obtain ⟨n', hok'⟩ := h.ok m.1
  obtain ⟨τ, hlog, hsees⟩ := h.account m.1
  obtain ⟨result, n'', rfl, hout, _⟩ := h.outcome hsep hstep.1 hok' hsees
  exact h.within_after_other hsep hstep.2 hout hk hok

end System

/-! ### What a client can tell -/

section Clients

variable {κ : Type*} {hash : Bytes → ℕ} {s₀ s : PMDKHashtableStorage} {σ τ : System κ} {k : κ}
  {owns : κ → Set Bytes} {τ₀ : Stacks}

/-- A client cannot tell that it is not alone: its walk never stands on an entry that
has been removed, its replies are those that its own calls determine, and so they are
those of every run in which it makes the same calls by itself, with the same
allocations served. -/
structure Undisturbed (hash : Bytes → ℕ) (s₀ : PMDKHashtableStorage) (σ : System κ) (k : κ) :
    Prop where
  walk : ∀ use id, (σ.clients k).pc ≠ .walking use id .dangling
  account : ∃ τ, Run SpecStep (fun id => s₀.pool.stack hash id) (σ.clients k).log τ
  alone : ∀ log s, Run (SoloStep hash) s₀ log s →
    log.map Completed.asked = (σ.clients k).log.map Completed.asked → log = (σ.clients k).log

/-- A step of the client `k` within a call. -/
def isTick [DecidableEq κ] (k : κ) : κ × Action → Bool
  | (_, .call _ _) => false
  | (j, .tick _) => j = k

/-- Every call of the client `k` that is under way returns after some number of
steps of its own, whatever the others do. -/
def Returns [DecidableEq κ] (hash : Bytes → ℕ) (owns : κ → Set Bytes) (σ : System κ) (k : κ) :
    Prop :=
  ∃ n, ∀ moves τ, Run (System.CarefulStep hash owns) σ moves τ →
    (∀ r answer, (k, Action.call r answer) ∉ moves) → moves.countP (isTick k) ≤ n

/-- A run of a client that is alone follows its account. -/
theorem solo_accounts (hrep : Represents hash s₀ τ₀) {log : List Completed}
    (hlog : ∀ c ∈ log, StorableId c.request.id) (hrun : Run (SoloStep hash) s₀ log s) :
    ∃ τ, Run SpecStep τ₀ log τ ∧ Represents hash s τ := by
  induction hrun with
  | nil => exact ⟨τ₀, Run.nil, hrep⟩
  | @snoc log s c t _ hstep ih =>
    obtain ⟨τ, haccount, hrep'⟩ := ih fun d hd => hlog d (by simp [hd])
    obtain ⟨τ', hspec, hrep''⟩ := hrep'.solo (hlog c (by simp)) hstep
    exact ⟨τ', haccount.snoc hspec, hrep''⟩

/-- The calls of an account are on the ids of its client. -/
theorem id_mem_of_account {own : Set Bytes} {log : List Completed} {υ : Stacks}
    (hrun : Run (OwnStep own) τ₀ log υ) : ∀ c ∈ log, c.request.id ∈ own := by
  induction hrun with
  | nil => simp
  | snoc _ hstep ih =>
    intro c hc
    rcases List.mem_append.mp hc with hc | hc
    · exact ih c hc
    · rw [List.mem_singleton.mp hc]
      exact hstep.1

/-- At the start the system is consistent. -/
theorem System.consistent_initial (hwf : s₀.Wf hash) :
    Consistent hash owns (fun id => s₀.pool.stack hash id) (System.initial s₀ : System κ) where
  pool := by
    have hfreed : (System.initial s₀ : System κ).freed = ∅ := by
      ext o
      simp [freed, initial, Pc.removes]
    rw [hfreed]
    exact hwf.pool
  nbuckets := hwf.nbuckets
  ok k := ⟨0, trivial⟩
  apart j k d hj := by cases hj
  account k := ⟨_, Run.nil, fun id _ => rfl, by rintro id oid ⟨⟩⟩

/-- A consistent system disturbs none of its clients. -/
theorem System.Consistent.undisturbed
    (h : Consistent hash owns (fun id => s₀.pool.stack hash id) σ) (hsep : Separate owns)
    (hwf : s₀.Wf hash) (k : κ) : Undisturbed hash s₀ σ k := by
  obtain ⟨τ, hrun, _⟩ := h.account k
  have haccount : Run SpecStep (fun id => s₀.pool.stack hash id) (σ.clients k).log τ :=
    hrun.imp fun _ _ _ hstep => hstep.2
  refine ⟨?_, ⟨τ, haccount⟩, ?_⟩
  · intro use id hpc
    obtain ⟨n, hok⟩ := h.ok k
    rw [Within, hpc] at hok
    exact hok
  · intro log s hsolo hasked
    have hids : ∀ c ∈ log, StorableId c.request.id := by
      intro c hc
      have hmem : c.asked ∈ (σ.clients k).log.map Completed.asked :=
        hasked ▸ List.mem_map_of_mem hc
      obtain ⟨d, hd, heq⟩ := List.mem_map.mp hmem
      have hrequest : d.request = c.request := congrArg Prod.fst heq
      rw [← hrequest]
      exact hsep.storable k _ (id_mem_of_account hrun d hd)
    obtain ⟨τ', haccount', _⟩ := solo_accounts ⟨hwf, fun _ _ => rfl⟩ hids hsolo
    exact (account_unique haccount' haccount hasked).1

variable [DecidableEq κ]

/-- The steps that a client takes within a call use up its bound. -/
theorem System.Consistent.countP_le (h : Consistent hash owns τ₀ σ) (hsep : Separate owns)
    {n : ℕ} (hok : σ.Within hash owns k n) {moves : List (κ × Action)}
    (hrun : Run (CarefulStep hash owns) σ moves τ)
    (hcalls : ∀ r answer, (k, Action.call r answer) ∉ moves) :
    Consistent hash owns τ₀ τ ∧
      ∃ n', τ.Within hash owns k n' ∧ n' + moves.countP (isTick k) ≤ n := by
  induction hrun with
  | nil => exact ⟨h, n, hok, by simp⟩
  | @snoc moves τ m υ hrun hstep ih =>
    obtain ⟨hτ, n', hok', hle⟩ := ih fun r answer hmem => hcalls r answer (by simp [hmem])
    refine ⟨hτ.step hsep hstep, ?_⟩
    rw [List.countP_append, List.countP_singleton]
    obtain ⟨j, action⟩ := m
    cases action with
    | call r answer =>
      have hj : k ≠ j := by
        rintro rfl
        exact hcalls r answer (by simp)
      exact ⟨n', hτ.within_other hsep hstep hj hok', by simpa [isTick] using hle⟩
    | tick answer =>
      by_cases hj : j = k
      · subst hj
        obtain ⟨hpos, hok''⟩ := hτ.within_tick hsep hstep hok'
        refine ⟨n' - 1, hok'', ?_⟩
        simp only [isTick, decide_true, if_true]
        omega
      · exact ⟨n', hτ.within_other hsep hstep (Ne.symm hj) hok', by simpa [isTick, hj] using hle⟩

/-- **Clients with ids of their own do not disturb each other**, as long as no entry
is removed under a walk. In every interleaving of the steps of any number of
clients, from any storage that calls can lead to, no client can tell that it is
not alone, and its calls return. -/
theorem clients_undisturbed {calls : List Call} (hstart : Run (FittingStep hash) created calls s₀)
    (hsep : Separate owns) {moves : List (κ × Action)}
    (hrun : Run (System.CarefulStep hash owns) (System.initial s₀) moves σ) (k : κ) :
    Undisturbed hash s₀ σ k ∧ Returns hash owns σ k := by
  have hwf := fitting_run_wf hstart
  have hinitial : System.Consistent hash owns _ (System.initial s₀) :=
    System.consistent_initial hwf
  have hconsistent := hrun.invariant hinitial fun _ _ _ h hstep => h.step hsep hstep
  refine ⟨hconsistent.undisturbed hsep hwf k, ?_⟩
  obtain ⟨n, hok⟩ := hconsistent.ok k
  refine ⟨n, ?_⟩
  intro more τ hmore hcalls
  obtain ⟨_, n', _, hle⟩ := hconsistent.countP_le hsep hok hmore hcalls
  omega

end Clients

/-! ### Two clients in one chain -/

/-- One client has the id `a`, the other one the id `b`. -/
def owners : Bool → Set Bytes
  | true => {[97]}
  | false => {[98]}

/-- The two clients have different ids. -/
theorem owners_separate : Separate owners where
  storable
    | true, _, rfl => storable_a
    | false, _, rfl => ⟨by decide, by decide⟩
  disjoint
    | true, true, _, _, _ => rfl
    | true, false, _, rfl, h => by cases h
    | false, true, _, rfl, h => by cases h
    | false, false, _, _, _ => rfl

/-- A storage with one byte under `a`, in a table with one chain for all ids. -/
def storedA : PMDKHashtableStorage := storedAt (fun _ => 0) created [97] [7] 1

/-- A `store` leads from the created storage to it. -/
theorem storedA_run : Run (FittingStep fun _ => 0) created [storeAt [97] [7] 1] storedA :=
  Run.single ⟨⟨(firstStore 7).1.1.1, rfl⟩, by rintro id ⟨⟩; decide⟩

section Lookups

variable {σ : System Bool}

/-- A client that is idle looks up one of its ids. -/
theorem call_lookup (k : Bool) (use : Lookup) (id : Bytes) (hidle : (σ.clients k).pc = .idle)
    (hid : id ∈ owners k) :
    σ.Step (fun _ => 0) owners (k, .call (.lookup use id) none)
      (σ.after k ((Request.lookup use id).begin (fun _ => 0) σ.storage none)) :=
  .call hidle hid rfl

/-- A client in a lookup takes its next step. -/
theorem tick_lookup (k : Bool) (hpc : (σ.clients k).pc ≠ .idle)
    (hwants : (σ.clients k).pc.wants = none) :
    σ.Step (fun _ => 0) owners (k, .tick none)
      (σ.after k ((σ.clients k).pc.step (fun _ => 0) σ.storage none)) := by
  apply System.Step.tick hpc
  rw [hwants]
  rfl

/-- A step that removes nothing is careful. -/
theorem System.Step.careful {m : Bool × Action} {σ' : System Bool}
    (h : σ.Step (fun _ => 0) owners m σ') (hnone : (σ.clients m.1).pc.removes = none) :
    σ.CarefulStep (fun _ => 0) owners m σ' := by
  refine ⟨h, ?_⟩
  rintro ⟨o, j, _, hsome, _⟩
  rw [hnone] at hsome
  cases hsome

end Lookups

set_option maxRecDepth 4000 in
/-- A `load` of `a` and one of `b` take turns. -/
theorem clients_undisturbed_loads :
    ∃ σ : System Bool, Run (System.CarefulStep (fun _ => 0) owners) (System.initial storedA)
        [(true, .call (.lookup .load [97]) none), (false, .call (.lookup .load [98]) none),
          (true, .tick none), (false, .tick none), (true, .tick none)] σ ∧
      (σ.clients true).log = [⟨.lookup .load [97], false, false, .ok (.copy [7])⟩] ∧
      (Undisturbed (fun _ => 0) storedA σ true ∧ Returns (fun _ => 0) owners σ true) := by
  have hfirst := call_lookup (σ := System.initial storedA) true .load [97] rfl rfl
  have hcall := Run.single (hfirst.careful rfl)
  have hother := hcall.snoc ((call_lookup false .load [98] rfl rfl).careful rfl)
  have hfound := hother.snoc ((tick_lookup true (by decide) rfl).careful rfl)
  have hmissing := hfound.snoc ((tick_lookup false (by decide) rfl).careful rfl)
  have hrun := hmissing.snoc ((tick_lookup true (by decide) rfl).careful rfl)
  refine ⟨_, hrun, ?_, clients_undisturbed storedA_run owners_separate hrun true⟩
  rfl

/-- A `free` of `a` takes its entry from under the walk of a `load` of `b`, which then
reads freed memory. By itself the client with the id `b` gets the error for a missing key. -/
theorem free_under_walk :
    ¬∀ (moves : List (Bool × Action)) (σ : System Bool),
      Run (System.Step (fun _ => 0) owners) (System.initial storedA) moves σ →
        ∀ k, Undisturbed (fun _ => 0) storedA σ k := by
  intro hclaim
  have hfirst := call_lookup (σ := System.initial storedA) false .load [98] rfl rfl
  have hfree := (Run.single hfirst).snoc (call_lookup true .free [97] rfl rfl)
  have hfound := hfree.snoc (tick_lookup true (by decide) rfl)
  have hcleared := hfound.snoc (tick_lookup true (by decide) rfl)
  have hremoved := hcleared.snoc (tick_lookup true (by decide) rfl)
  have hread := hremoved.snoc (tick_lookup false (by decide) rfl)
  have halone : SoloStep (fun _ => 0) storedA
      ⟨.lookup .load [98], false, false, .error (.thrown .pmdkCantFindKey)⟩ storedA :=
    ⟨none, none, rfl, rfl, ⟨rfl, rfl⟩, rfl⟩
  have hsame := (hclaim _ _ hread false).alone _ _ (Run.single halone) rfl
  have hreply := congrArg (List.map Completed.reply) hsame
  cases hreply

end Pmemcpy
