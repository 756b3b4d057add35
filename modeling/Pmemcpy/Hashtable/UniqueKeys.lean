import Pmemcpy.Hashtable.Sessions

/-!
# When the keys of the table are unique

An insertion never looks for an entry of the same id. So the table holds at most
one entry for each id, and a freed id stays forgotten, exactly in the runs that
insert only ids without an entry.
-/

namespace Pmemcpy

open Lib PMDKHashtableStorage

/-- The table holds at most one entry for each id. -/
def UniqueKeys (s : PMDKHashtableStorage) : Prop :=
  ∀ b b' x y, x ∈ s.pool.buckets b → y ∈ s.pool.buckets b' → x.entry.id = y.entry.id → x = y

/-- Since an id was last freed only the calls made after that count: reading it
throws until it is stored again, and never gives a value from before. -/
def ForgetsFreed (hash : Bytes → ℕ) (calls : List Call) (s : PMDKHashtableStorage) : Prop :=
  ∀ pre id post, calls = pre ++ .free id :: post →
    s.load hash id = outcome (stacksOf post id) ∧
      s.findBytes hash id = (outcome (stacksOf post id)).map fun v => (v.length, v)

/-- In every state that a run goes through keys are unique and freed ids are forgotten. -/
def KeysStayUnique (hash : Bytes → ℕ) (calls : List Call) : Prop :=
  ∀ pre s, pre <+: calls → Run (SessionStep hash) created pre s →
    UniqueKeys s ∧ ForgetsFreed hash pre s

/-- Every `store` and `alloc` of a run is about an id that has no entry at that time. -/
def InsertsOnlyAbsent (hash : Bytes → ℕ) (calls : List Call) : Prop :=
  ∀ pre c s, pre ++ [c] <+: calls → Run (SessionStep hash) created pre s →
    ∀ id src, c.inserts = some (id, src) →
      s.findEntry hash id = .error (.thrown .pmdkCantFindKey)

section

variable {hash : Bytes → ℕ} {s t : PMDKHashtableStorage} {id : Bytes} {c : Call}
  {calls pre : List Call}

/-- The call decides the next state of a session. -/
theorem SessionStep.deterministic {t' : PMDKHashtableStorage} (h : SessionStep hash s c t)
    (h' : SessionStep hash s c t') : t = t' := by
  have heq := h.1.2.2.symm.trans h'.1.2.2
  exact (Prod.mk.inj heq).2

/-- The calls of a session decide the state they lead to. -/
theorem session_deterministic (h : Run (SessionStep hash) created calls s)
    (h' : Run (SessionStep hash) created calls t) : s = t :=
  Run.deterministic (fun _ _ _ _ hstep hstep' => hstep.deterministic hstep') h h'

/-- An entry in the table whose id is `id` is met by the walk for `id`. -/
theorem PMDKHashtableStorage.Wf.mem_named (h : s.Wf hash) {b : ℕ} {x : ListElem}
    (hx : x ∈ s.pool.buckets b) : x ∈ s.pool.named hash x.entry.id := by
  refine List.mem_filter.mpr ⟨?_, ?_⟩
  · rw [← h.pool.placed hx]
    exact hx
  · exact ((h.pool.entry hx).isNamed_iff).mpr (SameKey.refl _)

/-- When the walk for an id finds nothing, no entry of the table has this id. -/
theorem PMDKHashtableStorage.Wf.id_ne_of_absent (h : s.Wf hash) {f : Failure}
    (habsent : s.findEntry hash id = .error f) {b : ℕ} {x : ListElem}
    (hx : x ∈ s.pool.buckets b) : x.entry.id ≠ id := by
  rintro rfl
  have hmem := h.mem_named hx
  cases hs : s.pool.stack hash x.entry.id with
  | nil =>
    obtain ⟨v, hv, _⟩ := h.pool.live hx (Set.notMem_empty _)
    have hvmem : v ∈ s.pool.stack hash x.entry.id := List.mem_filterMap.mpr ⟨x, hmem, hv⟩
    rw [hs] at hvmem
    cases hvmem
  | cons v rest =>
    obtain ⟨y, l, _, hy, _⟩ := h.findEntry_cons hs
    rw [hy] at habsent
    cases habsent

/-- A step that inserts only an absent id keeps the keys unique. -/
theorem UniqueKeys.step (hwf : s.Wf hash) (h : UniqueKeys s) (hstep : SessionStep hash s c t)
    (habsent : ∀ id src, c.inserts = some (id, src) →
      s.findEntry hash id = .error (.thrown .pmdkCantFindKey)) : UniqueKeys t := by
  obtain ⟨hsucc, hid⟩ := hstep
  rcases hsucc.effect with ⟨id, src, a, e, hc, hcid, ha, he, rfl⟩ | ⟨id, x, rfl, hfind, rfl⟩ |
    ⟨rfl, rfl⟩
  · have hfields := storeElem_fields (a := a) ha.size_lt (hid id hcid).room he.raw
    have hold := fun {b : ℕ} {x : ListElem} (hx : x ∈ s.pool.buckets b) =>
      hwf.id_ne_of_absent (habsent id src hc) hx
    intro b b' x y hx hy heq
    rcases mem_storePool.mp hx with ⟨_, rfl⟩ | hx' <;>
      rcases mem_storePool.mp hy with ⟨_, rfl⟩ | hy'
    · rfl
    · exact absurd (heq.symm.trans hfields.2.1) (hold hy')
    · exact absurd (heq.trans hfields.2.1) (hold hx')
    · exact h _ _ _ _ hx' hy' heq
  · cases hs : s.pool.stack hash id with
    | nil =>
      rw [hwf.findEntry_nil hs] at hfind
      cases hfind
    | cons v rest =>
      obtain ⟨y, l, hnamed, hy, _⟩ := hwf.findEntry_cons hs
      obtain rfl : y = x := by simpa using hy.symm.trans hfind
      have hbucket := hwf.mem_of_named hnamed
      intro b b' x z hx hz heq
      exact h _ _ _ _ ((hwf.mem_freePool_iff hbucket).mp hx).1
        ((hwf.mem_freePool_iff hbucket).mp hz).1 heq
  · exact h

/-- An insertion of an id that has an entry makes the keys clash. -/
theorem not_uniqueKeys_of_present (hwf : s.Wf hash) (hstep : SessionStep hash s c t)
    {id src : Bytes} (hc : c.inserts = some (id, src)) {x : ListElem}
    (hfind : s.findEntry hash id = .ok x) : ¬UniqueKeys t := by
  intro hunique
  obtain ⟨hsucc, hid⟩ := hstep
  rcases hsucc.effect with ⟨id', src', a, e, hc', hcid, ha, he, rfl⟩ | ⟨_, _, rfl, _⟩ | ⟨rfl, _⟩
  · obtain ⟨rfl, rfl⟩ : id = id' ∧ src = src' := by simpa [hc] using hc'
    have hfields := storeElem_fields (a := a) ha.size_lt (hid id hcid).room he.raw
    have hx := mem_of_findEntry hfind
    have hxid := (((hwf.pool.entry hx.1).isNamed_iff).mp hx.2).symm.eq (hid id hcid).nulFree
    have heq := hunique _ _ _ _ (mem_storePool.mpr (Or.inr hx.1))
      (mem_storePool.mpr (Or.inl ⟨rfl, rfl⟩)) (hxid.symm.trans hfields.2.1.symm)
    exact he.entry _ x hx.1 (congrArg ListElem.oid heq)
  · simp [Call.inserts] at hc
  · simp [Call.inserts] at hc

/-- The condition carries over to the beginnings of a run. -/
theorem InsertsOnlyAbsent.initial (h : InsertsOnlyAbsent hash calls) (hpre : pre <+: calls) :
    InsertsOnlyAbsent hash pre :=
  fun p c s hp => h p c s (hp.trans hpre)

/-- Runs that insert only absent ids lead to unique keys. -/
theorem InsertsOnlyAbsent.uniqueKeys (hrun : Run (SessionStep hash) created calls s)
    (h : InsertsOnlyAbsent hash calls) : UniqueKeys s := by
  induction hrun with
  | nil =>
    intro b b' x y hx
    simp [created, Pool.empty] at hx
  | @snoc labels s c t hrun hstep ih =>
    have hwf := (session_represents hrun).wf
    exact (ih (h.initial (List.prefix_append _ _))).step hwf hstep
      (h labels c s (List.prefix_refl _) hrun)

/-- With unique keys at most one value is stored under an id. -/
theorem UniqueKeys.stack_length_le (hwf : s.Wf hash) (h : UniqueKeys s) (hid : NulFree id) :
    (s.pool.stack hash id).length ≤ 1 := by
  have hsame : ∀ x ∈ s.pool.named hash id, ∀ y ∈ s.pool.named hash id, x = y := by
    intro x hx y hy
    obtain ⟨hxb, hxn⟩ := List.mem_filter.mp hx
    obtain ⟨hyb, hyn⟩ := List.mem_filter.mp hy
    have hxid := (((hwf.pool.entry hxb).isNamed_iff).mp hxn).symm.eq hid
    have hyid := (((hwf.pool.entry hyb).isNamed_iff).mp hyn).symm.eq hid
    exact h _ _ _ _ hxb hyb (hxid.symm.trans hyid)
  have hnodup : (s.pool.named hash id).Nodup := (List.Nodup.of_map _ (hwf.pool.nodup _)).filter _
  have hnamed : (s.pool.named hash id).length ≤ 1 := by
    match hl : s.pool.named hash id with
    | [] => simp
    | [x] => simp
    | x :: y :: l =>
      rw [hl] at hsame hnodup
      have hxy := hsame x (by simp) y (by simp)
      subst hxy
      simp at hnodup
  exact (List.length_filterMap_le _ _).trans hnamed

/-- The stack of an id after some calls depends only on the stack it had before them. -/
theorem foldl_stackStep_congr {σ τ : Stacks} (h : σ id = τ id) :
    calls.foldl Call.stackStep σ id = calls.foldl Call.stackStep τ id := by
  induction calls generalizing σ τ with
  | nil => exact h
  | cons c calls ih =>
    apply ih
    cases c <;> simp only [Call.stackStep, Stacks.push, Stacks.pop, Function.update_apply, h] <;>
      split <;> simp_all

/-- A freed id is forgotten, if its keys were unique when it was freed. -/
theorem UniqueKeys.forgetsFreed {post : List Call} (hid : StorableId id)
    (hmid : Run (SessionStep hash) created pre s) (hunique : UniqueKeys s)
    (hrun : Run (SessionStep hash) created (pre ++ .free id :: post) t) :
    t.load hash id = outcome (stacksOf post id) ∧
      t.findBytes hash id = (outcome (stacksOf post id)).map fun v => (v.length, v) := by
  have hrep := session_represents hmid
  have hlen := hunique.stack_length_le hrep.wf hid.nulFree
  rw [hrep.stack id hid.nulFree] at hlen
  have hpop : (Call.free id).stackStep (stacksOf pre) id = Stacks.empty id := by
    simp only [Call.stackStep, Stacks.pop, Function.update_self, Stacks.empty]
    rw [← List.length_eq_zero_iff, List.length_tail]
    omega
  have hend := session_represents hrun
  have hstack : t.pool.stack hash id = stacksOf post id := by
    rw [hend.stack id hid.nulFree, stacksOf, List.foldl_append, List.foldl_cons]
    exact foldl_stackStep_congr hpop
  rw [hend.wf.load_eq, hend.wf.findBytes_eq, hstack]
  exact ⟨rfl, rfl⟩

end

/-- **Unique keys.** A run of successful calls keeps the keys of the table unique
and the freed ids forgotten, in every state it goes through, if and only if each
of its insertions is of an id that has no entry at that time. -/
theorem keysStayUnique_iff (hash : Bytes → ℕ) {calls : List Call} {s : PMDKHashtableStorage}
    (hrun : Run (SessionStep hash) created calls s) :
    KeysStayUnique hash calls ↔ InsertsOnlyAbsent hash calls := by
  constructor
  · intro hkeep pre c m hpre hm id src hc
    obtain ⟨more, hmore⟩ := hpre
    obtain ⟨t, ht, _⟩ := Run.split (hmore ▸ hrun)
    obtain ⟨m', hm', hstep⟩ := ht.snoc_inv
    obtain rfl := session_deterministic hm hm'
    have hwf := (session_represents hm).wf
    have hunique := (hkeep (pre ++ [c]) t ⟨more, hmore⟩ ht).1
    cases hs : m.pool.stack hash id with
    | nil => exact hwf.findEntry_nil hs
    | cons v rest =>
      obtain ⟨x, l, _, hfind, _⟩ := hwf.findEntry_cons hs
      exact absurd hunique (not_uniqueKeys_of_present hwf hstep hc hfind)
  · intro habsent pre m hpre hm
    refine ⟨(habsent.initial hpre).uniqueKeys hm, ?_⟩
    rintro before id post rfl
    obtain ⟨m', hm', hafter⟩ := Run.split hm
    have hunique := (habsent.initial ((List.prefix_append _ _).trans hpre)).uniqueKeys hm'
    obtain ⟨m'', hstep, _⟩ := hafter.cons_inv
    exact hunique.forgetsFreed (hstep.2 id rfl) hm' hm

/-- A first `store` of an id keeps the keys unique. -/
theorem keysStayUnique_single :
    KeysStayUnique (fun _ => 0) [storeAt [97] [1] 1] := by
  refine (keysStayUnique_iff _ (Run.single (firstStore 1).1)).mpr ?_
  intro pre c s hpre hrun id src hc
  have hlen := hpre.length_le
  obtain rfl : pre = [] := by
    rw [← List.length_eq_zero_iff]
    simpa using hlen
  obtain rfl := hrun.nil_inv
  exact created_wf.findEntry_nil (Pool.stack_empty 1000 id)

/-- The id `a` stored twice has two entries, and a `free` brings the first value back. -/
theorem stored_twice_keysClash :
    ∃ s t, Run (SessionStep fun _ => 0) created [storeAt [97] [1] 1, storeAt [97] [2] 3] s ∧
      ¬UniqueKeys s ∧
      Run (SessionStep fun _ => 0) created
        [storeAt [97] [1] 1, storeAt [97] [2] 3, .free [97]] t ∧
      t.load (fun _ => 0) [97] = .ok [1] ∧ ¬ForgetsFreed (fun _ => 0)
        [storeAt [97] [1] 1, storeAt [97] [2] 3, .free [97]] t := by
  have hid := storable_a
  obtain ⟨hfirst, hbelow⟩ := firstStore 1
  obtain ⟨hsecond, _⟩ : SessionStep (fun _ => 0) _ (storeAt [97] [2] 3) _ ∧ _ :=
    SessionStep.storeAt hbelow hid (by decide) (by decide) (by decide)
  have hone := Run.single hfirst
  have htwo := hone.snoc hsecond
  have hrep₁ := session_represents hone
  have hrep₂ := session_represents htwo
  obtain ⟨x, _, _, hfind₁, _⟩ := hrep₁.wf.findEntry_cons (hrep₁.stack [97] hid.nulFree)
  obtain ⟨y, _, _, hfind₂, _⟩ := hrep₂.wf.findEntry_cons (hrep₂.stack [97] hid.nulFree)
  have hfree : SessionStep (fun _ => 0) _ (.free [97]) _ := SessionStep.free hid hfind₂
  have hthree := htwo.snoc hfree
  have hrep₃ := session_represents hthree
  have hstacks : stacksOf [storeAt [97] [1] 1, storeAt [97] [2] 3, .free [97]] [97] = [[1]] := by
    decide
  have hload := (hrep₃.wf.load_eq [97]).trans
    (congrArg outcome ((hrep₃.stack [97] hid.nulFree).trans hstacks))
  refine ⟨_, _, htwo, not_uniqueKeys_of_present hrep₁.wf hsecond rfl hfind₁, hthree, hload, ?_⟩
  intro hforgets
  have hnone := (hforgets [storeAt [97] [1] 1, storeAt [97] [2] 3] [97] [] rfl).1
  rw [hload] at hnone
  cases hnone

end Pmemcpy
