import Peephole.Proofs.Termination

/-!
# Which rule is applied

Freezing a list of rules puts the place of every rule into the table of its kind, and then
sorts each table.  What is looked up for a kind are the rules registered for it, by descending
benefit (`RuleList.rulesFor_freeze`).  Rules of equal benefit stay in the order of their
registration, since places are entered in this order and the sort is stable
(`RuleList.filter_rulesFor`).  So what is tried before a rule is told from its place among the
registered ones (`RuleList.split_of_rulesFor`).

A rule that does not apply may still ask to stop, and the next one is tried in a session where
somebody has.  That makes no difference to a program of edits (`EditM.Program.heedless`).
Hence the first rule that applies does what it would have done alone, and this is all that a
dispatch does (`dispatch_priority`).
-/

namespace Peephole

/-! ## The order of the rules -/

namespace RuleList

variable {rs : RuleList} {k : Kind}

/-- The table of a kind leads to the rules for it, sorted by benefit. -/
theorem rulesFor_freeze (rs : RuleList) (k : Kind) : rs.freeze.rulesFor k =
    (rs.rules.filter fun r => r.root = k).mergeSort fun a b => b.benefit ≤ a.benefit := by
  -- places are sorted as the rules at them would be
  have hmap : ∀ places : List (Fin rs.rules.length),
      (places.mergeSort rs.outranks).map (fun i => rs.rules[i]) =
        (places.map fun i => rs.rules[i]).mergeSort fun a b => b.benefit ≤ a.benefit :=
    fun places => List.map_mergeSort fun _ _ _ _ => rfl
  have htable : (rs.entered[k.place]).map (fun i => rs.rules[i]) =
      rs.rules.filter fun r => r.root = k := by
    conv_rhs => rw [← List.map_getElem_finRange rs.rules]
    rw [getElem_entered, List.filter_map]
    rfl
  have hsorted : rs.freeze.tables[k.place] = (rs.entered[k.place]).mergeSort rs.outranks :=
    Vector.getElem_map _ _
  rw [← htable, ← hmap, RuleSet.rulesFor, hsorted]
  rfl

theorem rulesFor_perm (rs : RuleList) (k : Kind) :
    (rs.freeze.rulesFor k).Perm (rs.rules.filter fun r => r.root = k) := by
  rw [rulesFor_freeze]
  exact List.mergeSort_perm _ _

theorem rulesFor_sorted (rs : RuleList) (k : Kind) :
    (rs.freeze.rulesFor k).Pairwise fun a b => b.benefit ≤ a.benefit := by
  have hsorted := List.pairwise_mergeSort benefit_trans benefit_total
    (rs.rules.filter fun r => r.root = k)
  rw [rulesFor_freeze]
  exact hsorted.imp of_decide_eq_true

/-- Rules of equal benefit are tried in the order they were registered. -/
theorem filter_rulesFor (rs : RuleList) (k : Kind) (n : Nat) :
    (rs.freeze.rulesFor k).filter (fun r => r.benefit = n) =
      rs.rules.filter fun r => r.root = k ∧ r.benefit = n := by
  have hperm := (rs.rulesFor_perm k).filter fun r => r.benefit = n
  have hboth : (rs.rules.filter fun r => r.root = k).filter (fun r => r.benefit = n) =
      rs.rules.filter fun r => r.root = k ∧ r.benefit = n := by
    rw [List.filter_filter]
    refine List.filter_congr fun r _ => ?_
    simp [and_comm]
  -- rules of one benefit are sorted as they stand, so the sort keeps them as a sublist
  have hequal : (rs.rules.filter fun r => r.root = k ∧ r.benefit = n).Pairwise
      fun a b => decide (b.benefit ≤ a.benefit) = true := by
    refine List.pairwise_of_forall_mem_list fun a ha b hb => ?_
    have ha' := (List.mem_filter.1 ha).2
    have hb' := (List.mem_filter.1 hb).2
    simp only [decide_eq_true_eq] at ha' hb' ⊢
    omega
  have hsub : (rs.rules.filter fun r => r.root = k ∧ r.benefit = n).Sublist
      (rs.freeze.rulesFor k) := by
    rw [rulesFor_freeze]
    refine List.sublist_mergeSort benefit_trans benefit_total hequal ?_
    rw [← hboth]
    exact List.filter_sublist
  have hsub' := hsub.filter fun r => r.benefit = n
  rw [List.filter_eq_self.2 fun r hr => ?_] at hsub'
  · rw [hboth] at hperm
    exact (hsub'.eq_of_length hperm.length_eq.symm).symm
  · have hr' := (List.mem_filter.1 hr).2
    simp only [decide_eq_true_eq] at hr' ⊢
    exact hr'.2

/-- What is registered before a rule and is not tried before it has less benefit, and what is
registered after it and is not tried before it has no more. -/
theorem split_of_rulesFor {r : Rule} {tried rest : List Rule}
    (h : rs.freeze.rulesFor k = tried ++ r :: rest) :
    ∃ before after, rs.rules = before ++ r :: after ∧
      (∀ r' ∈ before, r'.root = k → r' ∉ tried → r'.benefit < r.benefit) ∧
      ∀ r' ∈ after, r'.root = k → r' ∉ tried → r'.benefit ≤ r.benefit := by
  have hsorted := rs.rulesFor_sorted k
  have hfilter := rs.filter_rulesFor k r.benefit
  rw [h, List.pairwise_append, List.pairwise_cons] at hsorted
  rw [h, List.filter_append, List.filter_cons_of_pos (by simp), eq_comm,
    List.filter_eq_append_iff] at hfilter
  obtain ⟨l₁, l₂, hrules, hl₁, hl₂⟩ := hfilter
  obtain ⟨l₃, after, rfl, hl₃, -, -⟩ := List.filter_eq_cons_iff.1 hl₂
  have hle : ∀ r' ∈ rs.rules, r'.root = k → r' ∉ tried → r'.benefit ≤ r.benefit := by
    intro r' hr' hk htried
    have hmem : r' ∈ rs.freeze.rulesFor k := RuleSet.mem_rulesFor.2 ⟨hr', hk⟩
    rw [h, List.mem_append, List.mem_cons] at hmem
    rcases hmem.resolve_left htried with rfl | hrest
    · exact Nat.le_refl _
    · exact hsorted.2.1.1 r' hrest
  refine ⟨l₁ ++ l₃, after, by rw [hrules, List.append_assoc], ?_, ?_⟩
  · intro r' hr' hk htried
    refine Nat.lt_of_le_of_ne (hle r' (by grind) hk htried) fun heq => ?_
    rcases List.mem_append.1 hr' with hr' | hr'
    · -- of equal benefit and registered before, so tried before
      have hmem : r' ∈ tried.filter fun r' => r'.benefit = r.benefit := by
        rw [← hl₁]
        exact List.mem_filter.2 ⟨hr', by simp [hk, heq]⟩
      exact htried (List.mem_filter.1 hmem).1
    · exact hl₃ r' hr' (by simp [hk, heq])
  · intro r' hr' hk htried
    exact hle r' (by grind) hk htried

end RuleList

/-! ## The stop flag -/

namespace EditM

variable {α β : Type}

/-- It makes no difference to the edits whether somebody has asked to stop. -/
def Heedless (m : EditM α) : Prop :=
  ∀ ⦃s t : Session⦄ ⦃answer : Except EditError α⦄, m.runOn s = .ok (answer, t) →
    ∃ asked, ∀ stop, m.runOn { s with stopRequested := stop } =
      .ok (answer, { t with stopRequested := stop || asked })

namespace Heedless

/-- Edits that leave the flag alone and run with any flag are heedless. -/
theorem of_kept {m : EditM α} (h : ∀ ⦃s t : Session⦄ ⦃answer : Except EditError α⦄,
    m.runOn s = .ok (answer, t) → ∀ stop, m.runOn { s with stopRequested := stop } =
      .ok (answer, { t with stopRequested := stop })) : m.Heedless := by
  intro s t answer hrun
  refine ⟨false, fun stop => ?_⟩
  rw [Bool.or_false]
  exact h hrun stop

theorem of_question {m : EditM α} (question : Graph → Except Fault (Except EditError α))
    (hm : ∀ s, m.runOn s = (question s.graph).map fun a => (a, s)) : m.Heedless := by
  refine of_kept fun s t answer h stop => ?_
  rw [hm] at h ⊢
  obtain ⟨a, ha, heq⟩ := map_eq_ok.1 h
  cases heq
  rw [ha, map_ok]

theorem pure (a : α) : (pure a : EditM α).Heedless :=
  of_question (fun _ => .ok (.ok a)) fun _ => rfl

theorem throw (e : EditError) : (throw e : EditM α).Heedless :=
  of_question (fun _ => .ok (.error e)) fun _ => rfl

theorem lift (x : Except Fault α) : (liftM x : EditM α).Heedless := by
  refine of_question (fun _ => x.map .ok) fun s => ?_
  rw [runOn_lift]
  cases x with
  | ok a => rfl
  | error f => rfl

theorem ask (question : Graph → Except Fault α) : (ask question).Heedless := by
  refine of_question (fun g => (question g).map .ok) fun s => ?_
  rw [runOn_ask]
  cases question s.graph with
  | ok a => rfl
  | error f => rfl

theorem bind {m : EditM α} {f : α → EditM β} (hm : m.Heedless) (hf : ∀ a, (f a).Heedless) :
    (m >>= f).Heedless := by
  intro s t answer h
  rcases runOn_bind_eq_ok.1 h with ⟨e, hm', rfl⟩ | ⟨a, s', hm', hf'⟩
  · obtain ⟨asked, hrun⟩ := hm hm'
    exact ⟨asked, fun stop => runOn_bind_eq_ok.2 (.inl ⟨e, hrun stop, rfl⟩)⟩
  · obtain ⟨asked, hrun⟩ := hm hm'
    obtain ⟨asked', hrest⟩ := hf a hf'
    refine ⟨asked || asked', fun stop => ?_⟩
    rw [runOn_bind_of_ok (hrun stop), ← Bool.or_assoc]
    exact hrest (stop || asked)

theorem recover {m : EditM α} {handler : EditError → EditM α} (hm : m.Heedless)
    (hhandler : ∀ e, (handler e).Heedless) : (tryCatchThe EditError m handler).Heedless := by
  intro s t answer h
  rw [runOn_catch, bind_eq_ok] at h
  obtain ⟨⟨e | a, s'⟩, hm', h⟩ := h
  · obtain ⟨asked, hrun⟩ := hm hm'
    obtain ⟨asked', hrest⟩ := hhandler e h
    refine ⟨asked || asked', fun stop => ?_⟩
    rw [runOn_catch, hrun stop, ← Bool.or_assoc]
    exact hrest (stop || asked)
  · cases h
    obtain ⟨asked, hrun⟩ := hm hm'
    refine ⟨asked, fun stop => ?_⟩
    rw [runOn_catch, hrun stop]
    rfl

theorem forM {γ : Type} {f : γ → EditM PUnit} (hf : ∀ c, (f c).Heedless) :
    ∀ l : List γ, (forM l f).Heedless
  | [] => pure _
  | c :: l => by
      rw [List.forM_cons]
      exact (hf c).bind fun _ => forM hf l

theorem insert (anchor : OpId) (d : Draft) : (insert anchor d).Heedless := by
  refine of_kept fun s t answer h stop => ?_
  obtain ⟨o, g₁, g₂, observer, hnew, hplace, hn, rfl, rfl⟩ := runOn_insert.1 h
  exact runOn_insert.2 ⟨o, g₁, g₂, observer, hnew, hplace, hn, rfl, rfl⟩

theorem redirectUses (old new : ValueId) : (redirectUses old new).Heedless := by
  refine of_kept fun s t answer h stop => ?_
  obtain ⟨rfl, ⟨hidle, rfl⟩ | ⟨hbusy, g, observer, hg, hn, rfl⟩⟩ := runOn_redirectUses.1 h
  · exact runOn_redirectUses.2 ⟨rfl, .inl ⟨hidle, rfl⟩⟩
  · exact runOn_redirectUses.2 ⟨rfl, .inr ⟨hbusy, g, observer, hg, hn, rfl⟩⟩

theorem erase (o : OpId) : (erase o).Heedless := by
  refine of_kept fun s t answer h stop => ?_
  obtain ⟨d, n, hd, hn, ⟨hpos, rfl, rfl⟩ | ⟨hzero, nested, observer, g, hrest⟩⟩ := runOn_erase.1 h
  · exact runOn_erase.2 ⟨d, n, hd, hn, .inl ⟨hpos, rfl, rfl⟩⟩
  · obtain ⟨hnested, hobserver, hg, rfl, rfl⟩ := hrest
    exact runOn_erase.2
      ⟨d, n, hd, hn, .inr ⟨hzero, nested, observer, g, hnested, hobserver, hg, rfl, rfl⟩⟩

theorem replace (o : OpId) (values : List ValueId) : (replace o values).Heedless := by
  rw [replace_eq]
  refine bind (ask _) fun results => ?_
  dsimp only
  split
  · intro s t answer h
    cases h
  · exact bind (forM (fun _ => redirectUses _ _) _) fun _ => erase o

theorem restore (u : Update) (g : Graph) : (restore u g).Heedless := by
  refine of_kept fun s t answer h stop => ?_
  obtain ⟨g', hg', rfl, rfl⟩ := runOn_restore.1 h
  exact runOn_restore.2 ⟨g', hg', rfl, rfl⟩

theorem commit (u : Update) (g : Graph) : (commit u g).Heedless := by
  refine of_kept fun s t answer h stop => ?_
  obtain ⟨rfl, ⟨hchange, observer, hn, rfl⟩ | ⟨hchange, rfl⟩⟩ := runOn_commit.1 h
  · exact runOn_commit.2 ⟨rfl, .inl ⟨hchange, observer, hn, rfl⟩⟩
  · exact runOn_commit.2 ⟨rfl, .inr ⟨hchange, rfl⟩⟩

theorem release (u : Update) (g : Graph) (givingUp : Bool) :
    (release u g givingUp).Heedless := by
  rw [EditM.release]
  split
  · split
    · exact bind (restore u g) fun _ => pure _
    · exact bind (commit u g) fun _ => pure _
  · exact pure _

theorem finish (u : Update) (g : Graph) (ending : Ending) : (finish u g ending).Heedless := by
  cases ending with
  | commit => exact bind (commit u g) fun _ => bind (release _ g false) fun _ => pure _
  | cancel => exact bind (restore u g) fun _ => bind (release _ g false) fun _ => pure _
  | drop => exact bind (release u g false) fun _ => pure _
  | abandon => exact bind (release u g true) fun _ => pure _

theorem attemptUpdate (o : OpId) (slots : List (Nat × ValueId)) (ending : Ending) :
    (attemptUpdate o slots ending).Heedless := by
  have hgraph : graph.Heedless := of_question (fun g => .ok (.ok g)) fun _ => rfl
  refine bind hgraph fun g => ?_
  split
  · exact pure _
  · split
    · exact bind (release _ _ true) fun _ => pure _
    · exact finish _ _ ending

end Heedless

/-- Programs of edits are heedless. -/
theorem Program.heedless {allowed : Draft → Prop} {m : EditM α} (hm : Program allowed m) :
    m.Heedless := by
  induction hm with
  | pure a => exact .pure a
  | bind _ _ ihm ihf => exact .bind ihm ihf
  | ask question => exact .ask question
  | lift x => exact .lift x
  | throw e => exact .throw e
  | recover _ _ ihm ihh => exact .recover ihm ihh
  | insert _ => exact .insert _ _
  | attemptUpdate o slots ending => exact .attemptUpdate o slots ending
  | redirectUses old new => exact .redirectUses old new
  | erase o => exact .erase o
  | replace o values => exact .replace o values
  | requestStop =>
    intro s t answer h
    cases h
    refine ⟨true, fun stop => ?_⟩
    rw [Bool.or_true]
    rfl

end EditM

/-! ## The rule that is applied -/

section Dispatch

variable {c : Config} {rules : RuleSet} {g : Graph} {observer : Observer} {o : OpId} {x : Op}
  {r : Rule} {t : Session}

/-- Tried on its own, the rule says that it applied and has made a change.  This is the session
that it leaves. -/
def Rule.Applies (r : Rule) (g : Graph) (observer : Observer) (o : OpId) (t : Session) : Prop :=
  (r.apply o).runOn { graph := g, observer } = .ok (.ok .applied, t) ∧ t.mutated = true

/-- Tried on its own, the rule leaves the graph alone and is not in error, whatever it says. -/
def Rule.Declines (r : Rule) (g : Graph) (observer : Observer) (o : OpId) : Prop :=
  ∃ m t, (r.apply o).runOn { graph := g, observer } = .ok (.ok m, t) ∧
    t.graph = g ∧ t.mutated = false

theorem Rule.Declines.not_applies (h : r.Declines g observer o) : ¬r.Applies g observer o t := by
  rintro ⟨hrun, hmutated⟩
  obtain ⟨m, t', hrun', -, hsame⟩ := h
  rw [hrun] at hrun'
  cases hrun'
  rw [hmutated] at hsame
  cases hsame

/-- Rules that decline are passed over. -/
theorem tryRules_declined {tried : List Rule} (rest : List Rule)
    (hprogram : ∀ r ∈ tried, (r.apply o).Program fun _ => True)
    (htried : ∀ r ∈ tried, r.Declines g observer o) (stop : Bool) (calls : List Call) :
    ∃ stop' calls', tryRules observer o g stop calls (tried ++ rest) =
      tryRules observer o g stop' calls' rest := by
  induction tried generalizing stop calls with
  | nil => exact ⟨stop, calls, rfl⟩
  | cons r tried ih =>
    obtain ⟨m, t, hrun, hgraph, hmutated⟩ := htried r (.head tried)
    have hobserver : t.observer = observer := (r.discreet o hrun hmutated).2
    obtain ⟨asked, hrun⟩ := (hprogram r (.head tried)).heedless hrun
    obtain ⟨stop', calls', hrest⟩ := ih (fun r' hr' => hprogram r' (.tail r hr'))
      (fun r' hr' => htried r' (.tail r hr')) (stop || asked) (calls ++ [⟨r.name, o, .ok m⟩])
    refine ⟨stop', calls', ?_⟩
    rw [← hrest, List.cons_append, tryRules, hrun stop, ok_bind]
    dsimp only
    rw [hmutated, hgraph, hobserver]
    cases m with
    | applied => rfl
    | noMatch => rfl

/-- A rule that applies is the last one that is tried. -/
theorem tryRules_applied (rest : List Rule) (hprogram : (r.apply o).Program fun _ => True)
    (h : r.Applies g observer o t) (stop : Bool) (calls : List Call) :
    ∃ d, tryRules observer o g stop calls (r :: rest) = .ok d ∧ d.graph = t.graph ∧
      d.observer = t.observer ∧ d.verdict = .applied r.name := by
  obtain ⟨asked, hrun⟩ := hprogram.heedless h.1
  rw [tryRules, hrun stop, ok_bind]
  dsimp only
  rw [h.2]
  exact ⟨_, rfl, rfl, rfl, rfl⟩

/-- Rules all decline, or there is a first one that applies. -/
theorem first_applies : ∀ {rs : List Rule},
    (∀ r ∈ rs, (¬∃ t, r.Applies g observer o t) → r.Declines g observer o) →
    (∀ r ∈ rs, r.Declines g observer o) ∨
      ∃ tried r rest t, rs = tried ++ r :: rest ∧ (∀ r ∈ tried, r.Declines g observer o) ∧
        r.Applies g observer o t
  | [], _ => .inl nofun
  | r :: rs, h => by
      by_cases happlies : ∃ t, r.Applies g observer o t
      · obtain ⟨t, ht⟩ := happlies
        exact .inr ⟨[], r, rs, t, rfl, nofun, ht⟩
      · have hdeclines := h r (.head rs) happlies
        rcases first_applies fun r' hr' => h r' (.tail r hr') with
          hall | ⟨tried, r', rest, t, rfl, htried, ht⟩
        · exact .inl (List.forall_mem_cons.2 ⟨hdeclines, hall⟩)
        · exact .inr ⟨r :: tried, r', rest, t, rfl, List.forall_mem_cons.2 ⟨hdeclines, htried⟩, ht⟩

/-- What a frozen list of rules looks up for a kind are the rules registered for it, by
descending benefit and, for equal benefit, in the order they were registered.

If an operation is neither erased as unused nor folded, and the rules that do not apply to it
leave the graph alone and are not in error, then a dispatch does what the rule of highest
benefit would do that applies, the one registered first if there are several.  It does nothing
just if none applies. -/
theorem dispatch_priority (rs : RuleList) :
    (∀ k, (rs.freeze.rulesFor k).Perm (rs.rules.filter fun r => r.root = k) ∧
      (rs.freeze.rulesFor k).Pairwise (fun a b => b.benefit ≤ a.benefit) ∧
      ∀ n, (rs.freeze.rulesFor k).filter (fun r => r.benefit = n) =
        rs.rules.filter fun r => r.root = k ∧ r.benefit = n) ∧
    ∀ {c : Config} {g : Graph} {observer : Observer} {o : OpId} {x : Op}, rs.freeze.Programs →
      g.op o = .ok x →
      ¬(c.removeDead = true ∧ x.kind.isPure = true ∧ g.totalUses o = .ok 0) →
      (c.fold = true → g.foldedSum? o = .ok none) →
      (∀ r ∈ rs.rules, r.root = x.kind → (¬∃ t, r.Applies g observer o t) →
        r.Declines g observer o) →
      ∃ d, dispatch c rs.freeze g observer o = .ok d ∧
        (d.verdict = .idle ↔
          ∀ r ∈ rs.rules, r.root = x.kind → ¬∃ t, r.Applies g observer o t) ∧
        (d.verdict = .idle → d.graph = g ∧ d.observer = observer) ∧
        (d.verdict ≠ .idle → ∃ (before : List Rule) (r : Rule) (after : List Rule) (t : Session),
          rs.rules = before ++ r :: after ∧ r.root = x.kind ∧ r.Applies g observer o t ∧
          (∀ r' ∈ before, r'.root = x.kind → (∃ t', r'.Applies g observer o t') →
            r'.benefit < r.benefit) ∧
          (∀ r' ∈ after, r'.root = x.kind → (∃ t', r'.Applies g observer o t') →
            r'.benefit ≤ r.benefit) ∧
          d.graph = t.graph ∧ d.observer = t.observer ∧ d.verdict = .applied r.name) := by
  refine ⟨fun k => ⟨rs.rulesFor_perm k, rs.rulesFor_sorted k, rs.filter_rulesFor k⟩, ?_⟩
  intro c g observer o x hrules hx hdead hfold hclean
  have huses : ∃ n, g.totalUses o = .ok n := ⟨_, by simp [Graph.totalUses, Graph.results, hx]; rfl⟩
  obtain ⟨n, hn⟩ := huses
  rw [hn, Except.ok.injEq] at hdead
  rw [dispatch_eq_tryRules hx hn hdead hfold]
  have hfor : ∀ r ∈ rs.freeze.rulesFor x.kind, r ∈ rs.rules ∧ r.root = x.kind :=
    fun r hr => RuleSet.mem_rulesFor.1 hr
  rcases first_applies fun r hr => hclean r (hfor r hr).1 (hfor r hr).2 with
    hall | ⟨tried, r, rest, t, hsplit, htried, happlies⟩
  · obtain ⟨stop, calls, hd⟩ := tryRules_declined []
      (fun r hr => hrules r (hfor r hr).1 o) hall false []
    rw [List.append_nil] at hd
    refine ⟨_, hd, ⟨fun _ r hr hk => ?_, fun _ => rfl⟩, fun _ => ⟨rfl, rfl⟩,
      fun hbusy => absurd rfl hbusy⟩
    rintro ⟨t, ht⟩
    exact (hall r (RuleSet.mem_rulesFor.2 ⟨hr, hk⟩)).not_applies ht
  · have hmem : ∀ r' ∈ tried ++ r :: rest, r' ∈ rs.rules ∧ r'.root = x.kind :=
      fun r' hr' => hfor r' (hsplit ▸ hr')
    have hr := hmem r (by simp)
    obtain ⟨stop, calls, hpass⟩ := tryRules_declined (r :: rest)
      (fun r' hr' => hrules r' (hmem r' (by simp [hr'])).1 o) htried false []
    obtain ⟨d, hd, hgraph, hobserver, hverdict⟩ :=
      tryRules_applied rest (hrules r hr.1 o) happlies stop calls
    obtain ⟨before, after, hregistered, hbefore, hafter⟩ := RuleList.split_of_rulesFor hsplit
    have hbusy : d.verdict ≠ .idle := by
      intro hidle
      rw [hverdict] at hidle
      cases hidle
    have hskipped : ∀ r', (∃ t', r'.Applies g observer o t') → r' ∉ tried := by
      rintro r' ⟨t', ht'⟩ hr'
      exact (htried r' hr').not_applies ht'
    rw [hsplit, hpass]
    refine ⟨d, hd, ⟨fun hidle => absurd hidle hbusy, fun hnone => ?_⟩,
      fun hidle => absurd hidle hbusy, fun _ => ?_⟩
    · exact absurd ⟨t, happlies⟩ (hnone r hr.1 hr.2)
    · refine ⟨before, r, after, t, hregistered, hr.2, happlies, ?_, ?_, hgraph, hobserver, hverdict⟩
      · exact fun r' hr' hk ht' => hbefore r' hr' hk (hskipped r' ht')
      · exact fun r' hr' hk ht' => hafter r' hr' hk (hskipped r' ht')

end Dispatch

/-- A rule for Hadamard gates that asks to stop and says that it applied. -/
def Rule.boastful : Rule where
  name := "boastful"
  root := .hadamard
  benefit := 9
  apply _ := do
    EditM.requestStop
    return .applied
  discreet _ := EditM.Discreet.requestStop.bind fun _ => .pure _

/-- Four rules for Hadamard gates.  Two of them have benefit 2. -/
def RuleList.rivals : RuleList where
  rules := [{ Rules.exchange .hadamard .pauliX with benefit := 1 }, .boastful, Rules.hadamardPair,
    { Rules.exchange .hadamard .pauliZ with benefit := 2 }]

theorem RuleList.rivals_programs : rivals.freeze.Programs := by
  have hexchange : ∀ k k' o, ((Rules.exchange k k').apply o).Program fun _ => True :=
    fun _ _ => Rules.exchange_program fun _ _ => trivial
  simp only [RuleSet.Programs, rules_freeze, rivals, List.forall_mem_cons, List.not_mem_nil,
    false_implies, implies_true, and_true]
  refine ⟨hexchange _ _, fun o => .bind .requestStop fun _ => .pure _, ?_, hexchange _ _⟩
  exact Pass.rules_programs {} _ (by simp [Pass.rules])

/-- Three of the rules apply to the second gate of the pair.  The one that cancels it is the
first with the highest benefit among them. -/
theorem dispatch_priority_rivals : ∃ d,
    dispatch {} RuleList.rivals.freeze Graph.pairGraph (.worklist .empty) ⟨1⟩ = .ok d ∧
      d.graph.nestedOps ⟨3⟩ = .ok [⟨2⟩] ∧ d.verdict = .applied "cancel-hadamard-pair" := by
  have hlow : ∃ t, ({ Rules.exchange .hadamard .pauliX with benefit := 1 } : Rule).Applies
      Graph.pairGraph (.worklist .empty) ⟨1⟩ t := ⟨_, rfl, rfl⟩
  have hpair : ∃ t, Rules.hadamardPair.Applies Graph.pairGraph (.worklist .empty) ⟨1⟩ t :=
    ⟨_, rfl, rfl⟩
  have hlate : ∃ t, ({ Rules.exchange .hadamard .pauliZ with benefit := 2 } : Rule).Applies
      Graph.pairGraph (.worklist .empty) ⟨1⟩ t := ⟨_, rfl, rfl⟩
  have hboastful : Rule.boastful.Declines Graph.pairGraph (.worklist .empty) ⟨1⟩ :=
    ⟨.applied, _, rfl, rfl, rfl⟩
  have hrules : ∀ r ∈ RuleList.rivals.rules, r.root = .hadamard →
      (¬∃ t, r.Applies Graph.pairGraph (.worklist .empty) ⟨1⟩ t) →
      r.Declines Graph.pairGraph (.worklist .empty) ⟨1⟩ := by
    simp only [RuleList.rivals, List.forall_mem_cons, List.not_mem_nil, false_implies,
      implies_true, and_true]
    exact ⟨fun _ h => absurd hlow h, fun _ _ => hboastful, fun _ h => absurd hpair h,
      fun _ h => absurd hlate h⟩
  obtain ⟨x, hx, hkind⟩ : ∃ x, Graph.pairGraph.op ⟨1⟩ = .ok x ∧ x.kind = .hadamard :=
    ⟨_, rfl, rfl⟩
  have himpure : ¬(({} : Config).removeDead = true ∧ Kind.hadamard.isPure = true ∧
      Graph.pairGraph.totalUses ⟨1⟩ = .ok 0) := by
    decide +kernel
  rw [← hkind] at himpure hrules
  obtain ⟨d, hd, hidle, -, hbest⟩ := (dispatch_priority .rivals).2 RuleList.rivals_programs hx
    himpure (fun _ => rfl) hrules
  refine ⟨d, hd, ?_⟩
  have hbusy : d.verdict ≠ .idle := by
    rw [ne_eq, hidle]
    exact fun hnone => hnone Rules.hadamardPair (by simp [RuleList.rivals]) hkind.symm hpair
  obtain ⟨before, r, after, t, hsplit, -, happlies, hbefore, hafter, hgraph, -, hverdict⟩ :=
    hbest hbusy
  rcases before with _ | ⟨_, _ | ⟨_, _ | ⟨_, _ | ⟨_, before⟩⟩⟩⟩
  · -- the first rule has less benefit than the pair rule
    cases hsplit
    exact absurd (hafter Rules.hadamardPair (by simp) hkind.symm hpair) (by decide)
  · cases hsplit
    exact absurd happlies hboastful.not_applies
  · cases hsplit
    obtain ⟨hrun, -⟩ := happlies
    cases hrun
    rw [hgraph]
    exact ⟨by decide +kernel, hverdict⟩
  · -- the last rule has no more benefit than the pair rule
    cases hsplit
    exact absurd (hbefore Rules.hadamardPair (by simp) hkind.symm hpair) (by decide)
  · have hlength := congrArg List.length hsplit
    simp [RuleList.rivals] at hlength

end Peephole
