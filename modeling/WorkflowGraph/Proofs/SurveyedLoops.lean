/-
# The loops that a survey reaches

The survey of a document goes from the root into the located body of every iteration
record, also of one that cannot be decoded, while a lift opens only the bodies of loops.
Described here is which lists the survey visits and which entries of the resolver it
collects. The order of the records in their lists plays no part in it.
-/

import WorkflowGraph.Proofs.AssembledGraph

namespace WorkflowGraph

namespace Level

/-- The loop around a level. -/
def owner? : Level → Option String
  | .root => none
  | .body owner => some owner

@[simp] theorem owner?_eq_some_iff {level : Level} {owner : String} :
    level.owner? = some owner ↔ level = .body owner := by
  cases level <;> simp [owner?]

end Level

/-- Whether the survey takes a record for an iteration: its tag is that of one, and in a
body it is no loop-start node. -/
def Registry.iterates (g : Registry) (level : Level) (r : Record) : Bool :=
  g.kind? r.tag == some .iteration && (level == .root || !g.platform.isPseudoTag r.tag)

/-- The id that the parameters of a record give for its loop-start node. -/
def Record.startNode? (r : Record) : Option String :=
  (r.param? "start_node_id").bind Json.str?

namespace Document

/-- The lists of records that a survey visits, each with its level: the root, and the
located bodies of the iteration records in these lists. -/
inductive Surveys (g : Registry) (d : Document) : Level → List Record → Prop
  | root : Surveys g d .root d.records
  | body {level : Level} {rs : List Record} {r : Record} {body : Blocks} :
      Surveys g d level rs → r ∈ rs → g.iterates level r = true → d.body? r = some body →
        Surveys g d (.body r.id) body.records

/-- An iteration record that is reached from the root. -/
def ReachesLoop (g : Registry) (d : Document) (r : Record) : Prop :=
  ∃ level rs, d.Surveys g level rs ∧ r ∈ rs ∧ g.iterates level r = true

/-- Whether an id is that of a loop-start node in the located body of a record. -/
def marksStart (g : Registry) (d : Document) (r : Record) (id : String) : Bool :=
  (d.body? r).any fun body => body.records.any fun x =>
    g.platform.isPseudoTag x.tag && x.id == id

/-- No id occurs on two levels that a survey visits. -/
def IdsOnOneLevel (g : Registry) (d : Document) : Prop :=
  ∀ level rs, d.Surveys g level rs → ∀ other rs', d.Surveys g other rs' →
    ∀ r ∈ rs, ∀ r' ∈ rs', r.id = r'.id → other = level

/-- The id that an iteration record gives for its loop-start node is empty, or that of a
loop-start node in its own body. -/
def StartsOwn (g : Registry) (d : Document) : Prop :=
  ∀ r, d.ReachesLoop g r → ∀ id, r.startNode? = some id → id = "" ∨ d.marksStart g r id = true

/-- The entries of the resolver that a document calls for. -/
inductive Calls (g : Registry) (d : Document) : Resolver.Entry → Prop
  | start {r : Record} {id : String} :
      d.ReachesLoop g r → d.marksStart g r id = true → Calls g d (.aliased id r.id)
  | named {r : Record} {id : String} :
      d.ReachesLoop g r → r.startNode? = some id → id ≠ "" → Calls g d (.aliased id r.id)
  | output {r : Record} {o : RecordOutput} :
      d.ReachesLoop g r → o ∈ r.outputs → o.name ≠ iterationOutput →
        Calls g d (.renamed r.id o.name iterationOutput)

variable {g : Registry} {d : Document} {level : Level} {rs : List Record} {r : Record}

theorem marksStart_iff {id : String} : d.marksStart g r id = true ↔
    ∃ body, d.body? r = some body ∧
      ∃ x ∈ body.records, g.platform.isPseudoTag x.tag = true ∧ x.id = id := by
  simp [marksStart, Option.any_eq_true]

/-- A loop-start node in a surveyed body marks the loop of that body. -/
theorem Surveys.calls_start {owner : String} (hsurveys : d.Surveys g (.body owner) rs)
    (hr : r ∈ rs) (hpseudo : g.platform.isPseudoTag r.tag = true) :
    d.Calls g (.aliased r.id owner) := by
  cases hsurveys with
  | body houter hmem hiterates hbody =>
      exact .start ⟨_, _, houter, hmem, hiterates⟩
        (marksStart_iff.mpr ⟨_, hbody, r, hr, hpseudo, rfl⟩)

theorem Surveys.lists (hloops : ∀ level rs, d.Lists g level rs → ∀ r ∈ rs,
    g.iterates level r = true → g.isLoop r = true) (hsurveys : d.Surveys g level rs) :
    d.Lists g level rs := by
  induction hsurveys with
  | root => exact .root
  | body _ hr hloop hbody ih =>
      exact .body ih hr (opened?_eq_some_iff.mpr ⟨hloops _ _ ih _ hr hloop, hbody⟩)

/-- In a nesting of records all iteration records are loops and name loop-start nodes of
their own, and no id occurs on two levels. -/
def IsTidy (g : Registry) (d : Document) (t : Nested Record) : Prop :=
  ∀ e ∈ t.levels Record.id .root, ∀ r ∈ e.2.roots,
    (g.iterates e.1 r = true → g.isLoop r = true ∧
      ∀ id ∈ r.startNode?, id = "" ∨ d.marksStart g r id = true) ∧
    ∀ other ∈ t.levels Record.id .root, ∀ r' ∈ other.2.roots, r.id = r'.id → other.1 = e.1

instance (g : Registry) (d : Document) (t : Nested Record) : Decidable (IsTidy g d t) :=
  inferInstanceAs (Decidable (∀ e ∈ t.levels Record.id .root, ∀ r ∈ e.2.roots,
    (g.iterates e.1 r = true → g.isLoop r = true ∧
      ∀ id ∈ r.startNode?, id = "" ∨ d.marksStart g r id = true) ∧
    ∀ other ∈ t.levels Record.id .root, ∀ r' ∈ other.2.roots, r.id = r'.id → other.1 = e.1))

/-- A survey of a tidy nesting visits lists of the nesting only. -/
theorem IsTidy.exists_of_surveys {t : Nested Record} (htidy : IsTidy g d t)
    (ht : d.Unrolls g d.records t) (hsurveys : d.Surveys g level rs) :
    ∃ u, (level, u) ∈ t.levels Record.id .root ∧ u.roots = rs := by
  have hlist : d.Lists g level rs := by
    refine hsurveys.lists fun level rs hlist r hr hloop => ?_
    obtain ⟨u, hmem, hu⟩ := ht.exists_of_lists hlist
    exact ((htidy _ hmem r (hu.roots_eq ▸ hr)).1 hloop).1
  obtain ⟨u, hmem, hu⟩ := ht.exists_of_lists hlist
  exact ⟨u, hmem, hu.roots_eq⟩

/-- A computation decides that no id occurs on two levels. -/
theorem idsOnOneLevel_of_unroll? (n : Nat)
    (hall : (d.unroll? g n d.records).any (fun t => IsTidy g d t) = true) :
    d.IdsOnOneLevel g := by
  obtain ⟨t, hfound, htidy⟩ := Option.any_eq_true _ _ |>.mp hall
  have ht := unrolls_of_unroll? n _ _ hfound
  replace htidy := of_decide_eq_true htidy
  intro level rs hsurveys other rs' hsurveys' r hr r' hr' hid
  obtain ⟨u, hmem, rfl⟩ := htidy.exists_of_surveys ht hsurveys
  obtain ⟨u', hmem', rfl⟩ := htidy.exists_of_surveys ht hsurveys'
  exact (htidy _ hmem r hr).2 _ hmem' r' hr' hid

/-- A computation decides that loop-start nodes are named by their own loops. -/
theorem startsOwn_of_unroll? (n : Nat)
    (hall : (d.unroll? g n d.records).any (fun t => IsTidy g d t) = true) :
    d.StartsOwn g := by
  obtain ⟨t, hfound, htidy⟩ := Option.any_eq_true _ _ |>.mp hall
  have ht := unrolls_of_unroll? n _ _ hfound
  replace htidy := of_decide_eq_true htidy
  rintro r ⟨level, rs, hsurveys, hr, hloop⟩ id hid
  obtain ⟨u, hmem, rfl⟩ := htidy.exists_of_surveys ht hsurveys
  exact ((htidy _ hmem r hr).1 hloop).2 id hid

end Document

namespace Survey

open Document

variable {g : Registry} {d : Document} {level : Level} {rs : List Record} {r : Record}
  {inner : String → Blocks → Option (List Resolver.Entry)} {entries : List Resolver.Entry}

theorem mem_outputEntries_iff {e : Resolver.Entry} : e ∈ outputEntries r ↔
    ∃ o ∈ r.outputs, o.name ≠ iterationOutput ∧ .renamed r.id o.name iterationOutput = e := by
  simp [outputEntries, and_assoc]

theorem mem_startEntries_iff {e : Resolver.Entry} : e ∈ startEntries r ↔
    ∃ id, r.startNode? = some id ∧ id ≠ "" ∧ .aliased id r.id = e := by
  unfold startEntries Record.startNode?
  cases (r.param? "start_node_id").bind Json.str? with
  | none => simp
  | some id =>
      dsimp only
      by_cases hempty : id = ""
      · simp [hempty]
      · rw [if_neg (by simpa using hempty)]
        simp [hempty, @eq_comm _ e]

/-- What one record adds to a survey. -/
inductive Adds (g : Registry) (d : Document)
    (inner : String → Blocks → Option (List Resolver.Entry)) (level : Level) (r : Record) :
    List Resolver.Entry → Prop
  | start {owner : String} :
      level = .body owner → g.platform.isPseudoTag r.tag = true →
        Adds g d inner level r [.aliased r.id owner]
  | other :
      (∀ owner, level = .body owner → g.platform.isPseudoTag r.tag = false) →
        g.iterates level r = false → Adds g d inner level r []
  | bare :
      g.iterates level r = true → d.body? r = none →
        Adds g d inner level r (outputEntries r ++ startEntries r)
  | loop {body : Blocks} {nested : List Resolver.Entry} :
      g.iterates level r = true → d.body? r = some body → inner r.id body = some nested →
        Adds g d inner level r (outputEntries r ++ startEntries r ++ nested)

theorem adds_of_ofRecord (hrecord : ofRecord g d inner level.owner? r = some entries) :
    Adds g d inner level r entries := by
  unfold ofRecord at hrecord
  split at hrecord
  next loop hpseudo =>
      obtain ⟨howner, htag⟩ := Option.filter_eq_some_iff.mp hpseudo
      obtain rfl := Option.some.inj hrecord
      exact .start (Level.owner?_eq_some_iff.mp howner) htag
  next hpseudo =>
      have hplain : ∀ owner, level = .body owner → g.platform.isPseudoTag r.tag = false := by
        rintro owner rfl
        simpa [Level.owner?] using hpseudo
      have hiterates : g.iterates level r = (g.kind? r.tag == some .iteration) := by
        cases level with
        | root => simp [Registry.iterates]
        | body owner => simp [Registry.iterates, hplain owner rfl]
      split at hrecord
      next hkind =>
          obtain rfl := Option.some.inj hrecord
          exact .other hplain (by simpa [hiterates] using hkind)
      next hkind =>
          have hloop : g.iterates level r = true := by simpa [hiterates] using hkind
          dsimp only at hrecord
          split at hrecord
          next body hbody =>
              obtain ⟨nested, hnested, rfl⟩ := Option.map_eq_some_iff.mp hrecord
              exact .loop hloop hbody hnested
          next hbody =>
              obtain rfl := Option.some.inj hrecord
              exact .bare hloop hbody

/-- In a body, a loop-start node adds its alias. -/
theorem Adds.eq_start {owner : String} (hadds : Adds g d inner (.body owner) r entries)
    (hpseudo : g.platform.isPseudoTag r.tag = true) : entries = [.aliased r.id owner] := by
  have hplain : g.iterates (.body owner) r = false := by simp [Registry.iterates, hpseudo]
  cases hadds with
  | start hlevel _ =>
      obtain rfl := Level.body.inj hlevel
      rfl
  | other hnot _ => cases (hnot owner rfl).symm.trans hpseudo
  | bare hloop _ => cases hplain.symm.trans hloop
  | loop hloop _ _ => cases hplain.symm.trans hloop

/-- An iteration record adds its own entries, and those of its body if it has one. -/
theorem Adds.of_iterates (hadds : Adds g d inner level r entries)
    (hloop : g.iterates level r = true) : outputEntries r ++ startEntries r ⊆ entries ∧
      ∀ body, d.body? r = some body → ∃ nested, inner r.id body = some nested ∧
        nested ⊆ entries := by
  cases hadds with
  | start hlevel hpseudo =>
      subst hlevel
      simp [Registry.iterates, hpseudo] at hloop
  | other _ hnot => cases hnot.symm.trans hloop
  | bare _ hnone =>
      exact ⟨List.Subset.refl _, fun body hbody => absurd (hnone.symm.trans hbody) nofun⟩
  | loop _ hown hnested =>
      refine ⟨List.subset_append_left _ _, fun body hbody => ?_⟩
      obtain rfl := Option.some.inj (hown.symm.trans hbody)
      exact ⟨_, hnested, List.subset_append_right _ _⟩

/-- The entries of a list are those of its records, one after the other. -/
theorem ofRecords_cons_eq_some {inner : String → Blocks → Option (List Resolver.Entry)}
    {owner : Option String} {r : Record} {rs : List Record} {entries : List Resolver.Entry}
    (hrecords : ofRecords g d inner owner (r :: rs) = some entries) :
    ∃ added rest, ofRecord g d inner owner r = some added ∧
      ofRecords g d inner owner rs = some rest ∧ entries = added ++ rest := by
  obtain ⟨added, hadded, htail⟩ := Option.bind_eq_some_iff.mp hrecords
  obtain ⟨rest, hrest, hresult⟩ := Option.bind_eq_some_iff.mp htail
  exact ⟨added, rest, hadded, hrest, (Option.some.inj hresult).symm⟩

/-- What each record of a list adds is collected. -/
theorem exists_adds_of_mem (hrecords : ofRecords g d inner level.owner? rs = some entries)
    (hr : r ∈ rs) : ∃ added, Adds g d inner level r added ∧ added ⊆ entries := by
  induction rs generalizing entries with
  | nil => cases hr
  | cons first rs ih =>
      obtain ⟨added, rest, hadded, hrest, rfl⟩ := ofRecords_cons_eq_some hrecords
      rcases List.mem_cons.mp hr with rfl | hlater
      · exact ⟨added, adds_of_ofRecord hadded, List.subset_append_left _ _⟩
      · obtain ⟨more, hmore, hsub⟩ := ih hrest hlater
        exact ⟨more, hmore, List.subset_append_of_subset_right _ hsub⟩

/-- Nothing else is collected. -/
theorem exists_adds_of_mem_entries
    (hrecords : ofRecords g d inner level.owner? rs = some entries) {e : Resolver.Entry}
    (he : e ∈ entries) : ∃ r ∈ rs, ∃ added, Adds g d inner level r added ∧ e ∈ added := by
  induction rs generalizing entries with
  | nil =>
      obtain rfl := Option.some.inj hrecords
      cases he
  | cons first rs ih =>
      obtain ⟨added, rest, hadded, hrest, rfl⟩ := ofRecords_cons_eq_some hrecords
      rcases List.mem_append.mp he with hhere | hlater
      · exact ⟨first, List.mem_cons_self, added, adds_of_ofRecord hadded, hhere⟩
      · obtain ⟨r, hr, hfound⟩ := ih hrest hlater
        exact ⟨r, List.mem_cons_of_mem _ hr, hfound⟩

theorem calls_of_mem_own {e : Resolver.Entry} (hreached : d.ReachesLoop g r)
    (he : e ∈ outputEntries r ++ startEntries r) : d.Calls g e := by
  rcases List.mem_append.mp he with houtput | hstart
  · obtain ⟨o, ho, hname, rfl⟩ := mem_outputEntries_iff.mp houtput
    exact .output hreached ho hname
  · obtain ⟨id, hid, hsome, rfl⟩ := mem_startEntries_iff.mp hstart
    exact .named hreached hid hsome

/-- A survey of a list that it reaches collects entries that the document calls for. -/
theorem calls_of_mem_within (n : Nat) : ∀ level rs entries, d.Surveys g level rs →
    within g d n level.owner? rs = some entries → ∀ e ∈ entries, d.Calls g e := by
  induction n with
  | zero => nofun
  | succ n ih =>
      intro level rs entries hsurveys hwithin e he
      obtain ⟨r, hr, added, hadds, hmem⟩ := exists_adds_of_mem_entries hwithin he
      cases hadds with
      | start hlevel hpseudo =>
          obtain rfl := List.mem_singleton.mp hmem
          exact (hlevel ▸ hsurveys).calls_start hr hpseudo
      | other _ _ => cases hmem
      | bare hloop _ => exact calls_of_mem_own ⟨level, rs, hsurveys, hr, hloop⟩ hmem
      | loop hloop hbody hnested =>
          rcases List.mem_append.mp hmem with hown | hinside
          · exact calls_of_mem_own ⟨level, rs, hsurveys, hr, hloop⟩ hown
          · exact ih (.body r.id) _ _ (hsurveys.body hr hloop hbody) hnested e hinside

/-- A survey of the root surveys every list that it reaches, and keeps what it collects
there. -/
theorem exists_ofRecords_of_surveys {depth : Nat}
    (hroot : within g d depth none d.records = some entries) (hsurveys : d.Surveys g level rs) :
    ∃ n inside, ofRecords g d (fun loop body => within g d n (some loop) body.records)
      level.owner? rs = some inside ∧ inside ⊆ entries := by
  induction hsurveys with
  | root =>
      cases depth with
      | zero => cases hroot
      | succ n => exact ⟨n, entries, hroot, List.Subset.refl _⟩
  | body _ hr hloop hbody ih =>
      obtain ⟨n, inside, hinside, hsub⟩ := ih
      obtain ⟨added, hadds, hadded⟩ := exists_adds_of_mem hinside hr
      obtain ⟨nested, hnested, hmore⟩ := (hadds.of_iterates hloop).2 _ hbody
      cases n with
      | zero => cases hnested
      | succ n => exact ⟨n, nested, hnested, fun e he => hsub (hadded (hmore he))⟩

/-- A survey of the root collects exactly the entries that the document calls for. -/
theorem mem_entries_iff {depth : Nat}
    (hroot : within g d depth none d.records = some entries) {e : Resolver.Entry} :
    e ∈ entries ↔ d.Calls g e := by
  refine ⟨calls_of_mem_within depth .root _ _ .root hroot e, fun hcalls => ?_⟩
  have hown : ∀ r, d.ReachesLoop g r → outputEntries r ++ startEntries r ⊆ entries := by
    rintro r ⟨level, rs, hsurveys, hr, hloop⟩
    obtain ⟨n, inside, hinside, hsub⟩ := exists_ofRecords_of_surveys hroot hsurveys
    obtain ⟨added, hadds, hadded⟩ := exists_adds_of_mem hinside hr
    exact fun e he => hsub (hadded ((hadds.of_iterates hloop).1 he))
  cases hcalls with
  | @start r id hreached hmarks =>
      obtain ⟨level, rs, hsurveys, hr, hloop⟩ := hreached
      obtain ⟨body, hbody, x, hx, hpseudo, rfl⟩ := marksStart_iff.mp hmarks
      obtain ⟨n, inside, hinside, hsub⟩ :=
        exists_ofRecords_of_surveys hroot (hsurveys.body hr hloop hbody)
      obtain ⟨added, hadds, hadded⟩ := exists_adds_of_mem hinside hx
      obtain rfl := hadds.eq_start hpseudo
      exact hsub (hadded (List.mem_singleton_self _))
  | named hreached hid hsome =>
      exact hown _ hreached (List.mem_append_right _
        (mem_startEntries_iff.mpr ⟨_, hid, hsome, rfl⟩))
  | output hreached ho hname =>
      exact hown _ hreached (List.mem_append_left _
        (mem_outputEntries_iff.mpr ⟨_, ho, hname, rfl⟩))

/-- The resolver of a document is filled with the entries that the document calls for. -/
theorem exists_entries {resolver : Resolver} (hresolver : resolver? g d = some resolver) :
    ∃ entries, (∀ e, e ∈ entries ↔ d.Calls g e) ∧ resolver = Resolver.ofEntries entries := by
  obtain ⟨entries, hentries, rfl⟩ := Option.map_eq_some_iff.mp hresolver
  exact ⟨entries, fun _ => mem_entries_iff hentries, rfl⟩

end Survey

end WorkflowGraph
