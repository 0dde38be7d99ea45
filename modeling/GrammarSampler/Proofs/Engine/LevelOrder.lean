import GrammarSampler.Proofs.Engine.DepthFirst

/-!
# Level order lays out derivations

A derivation level by level treats the sites like a queue: the children of a site come after all
sites that wait. It succeeds if and only if its choices lead to an admitted derivation of which
every part fits, and then it lays out this derivation.
-/

namespace GrammarSampler

def Setting.fresh (s : Setting) (token : String) : Node := ⟨token, s.stateOf token⟩

namespace LevelOrder

variable {σ : Type} {s : Setting} {choose : Chooser σ} {levels : Nat} {source : σ}
  {nodes : List Node} {after : Growth σ} {site : Site}

/-! ## New sites -/

def newSites (parent : Site) : Nat → Nat → List String → List Site
  | _, _, [] => []
  | index, id, token :: tokens =>
    parent.child index token id :: newSites parent (index + 1) (id + 1) tokens

theorem length_newSites (parent : Site) (index id : Nat) (tokens : List String) :
    (newSites parent index id tokens).length = tokens.length := by
  induction tokens generalizing index id with
  | nil => rfl
  | cons token tokens ih => simp [newSites, ih]

theorem map_id_newSites (parent : Site) (index id : Nat) (tokens : List String) :
    (newSites parent index id tokens).map (·.id) = List.range' id tokens.length := by
  induction tokens generalizing index id with
  | nil => rfl
  | cons token tokens ih => simp [newSites, ih, Site.child, List.range'_succ]

theorem map_fresh_newSites (parent : Site) (index id : Nat) (tokens : List String) :
    (newSites parent index id tokens).map (fun child => s.fresh child.symbol) =
      tokens.map s.fresh := by
  induction tokens generalizing index id with
  | nil => rfl
  | cons token tokens ih => simp [newSites, ih, Site.child]

/-! ## One site -/

theorem addChildren_eq_ok_iff {tokens : List String} {index : Nat} {children : List Site} :
    Run.addChildren s (fun _ => pure ()) site index tokens ⟨.ofNodes nodes, source⟩ =
        some (.ok children, after) ↔
      s.MayGrow nodes.length (nodes.length + tokens.length) ∧
        children = newSites site index nodes.length tokens ∧
        after = ⟨.ofNodes (nodes ++ tokens.map s.fresh), source⟩ := by
  induction tokens generalizing index nodes children with
  | nil =>
      rw [Run.addChildren_nil_eq_ok_iff]
      simp [newSites, s.mayGrow_self, eq_comm]
  | cons token tokens ih =>
      rw [Run.addChildren_cons_eq_ok_iff, ← Setting.mayGrow_succ]
      simp only [Tree.size_ofNodes, Tree.push_ofNodes, Run.pure_eq_ok_iff, true_and]
      have hgrow := s.mayGrow_trans_iff (Nat.le_succ nodes.length)
        (Nat.le_add_right (nodes.length + 1) tokens.length)
      rw [List.length_cons, Nat.add_comm tokens.length, ← Nat.add_assoc, ← hgrow]
      apply Iff.intro
      · intro h
        obtain ⟨hfirst, _, rest, rfl, hrest, rfl⟩ := h
        obtain ⟨hmore, rfl, rfl⟩ := ih.1 hrest
        refine ⟨⟨hfirst, by simpa using hmore⟩, by simp [newSites], by simp [Setting.fresh]⟩
      · intro h
        obtain ⟨⟨hfirst, hmore⟩, rfl, rfl⟩ := h
        refine ⟨hfirst, _, newSites site (index + 1) (nodes.length + 1) tokens, rfl, ih.2 ?_, rfl⟩
        exact ⟨by simpa using hmore, by simp, by simp [Setting.fresh]⟩

theorem expand_eq_ok_iff {next : List Site} :
    expand s choose site ⟨.ofNodes nodes, source⟩ = some (.ok next, after) ↔
      ∃ options rule middle, s.options site.symbol site.depth = .ok options ∧
        choose site options source = some (rule, middle) ∧
        s.MayGrow nodes.length (nodes.length + (s.tokens site.symbol rule).length) ∧
        next = (newSites site 0 nodes.length (s.tokens site.symbol rule)).filter
          (s.grammar.defines ·.symbol) ∧
        after = ⟨(Tree.ofNodes (nodes ++ (s.tokens site.symbol rule).map s.fresh)).resolve site.id
          (.expanded rule (List.range' nodes.length (s.tokens site.symbol rule).length)),
          middle⟩ := by
  simp only [expand, Run.bind_eq_ok_iff, Run.chooseRule_eq_ok_iff, Run.settle_eq_ok_iff,
    Run.pure_eq_ok_iff]
  apply Iff.intro
  · intro h
    obtain ⟨rule, _, ⟨options, middle, ho, hc, rfl⟩, children, grown, hadd, hmore⟩ := h
    obtain ⟨_, _, rfl, rfl, rfl⟩ := hmore
    obtain ⟨hgrow, rfl, rfl⟩ := addChildren_eq_ok_iff.1 hadd
    exact ⟨options, rule, middle, ho, hc, hgrow, rfl, by rw [map_id_newSites]⟩
  · intro h
    obtain ⟨options, rule, middle, ho, hc, hgrow, rfl, rfl⟩ := h
    refine ⟨rule, _, ⟨options, middle, ho, hc, rfl⟩, _, _,
      addChildren_eq_ok_iff.2 ⟨hgrow, rfl, rfl⟩, (), _, rfl, rfl, ?_⟩
    rw [map_id_newSites]

/-! ## The queue -/

/-- Whether derivations no higher than `levels` may grow at the sites of a queue. -/
def Grows (s : Setting) (levels : Nat) (row : List Site) (queue : List (Site × Derivation)) :
    Prop :=
  queue.map (·.1) = row ∧
    ∀ e ∈ queue, e.2.root = e.1.symbol ∧ s.Admits e.1.depth e.2 ∧ e.2.height ≤ levels

theorem grows_nil_iff {queue : List (Site × Derivation)} :
    Grows s levels [] queue ↔ queue = [] := by
  apply Iff.intro
  · intro h
    obtain ⟨hrow, -⟩ := h
    exact List.map_eq_nil_iff.1 hrow
  · intro h
    subst h
    exact ⟨rfl, by simp⟩

theorem grows_cons_iff {row : List Site} {queue : List (Site × Derivation)} :
    Grows s levels (site :: row) queue ↔ ∃ d rest, queue = (site, d) :: rest ∧
      d.root = site.symbol ∧ s.Admits site.depth d ∧ d.height ≤ levels ∧
        Grows s levels row rest := by
  apply Iff.intro
  · intro h
    obtain ⟨hrow, hq⟩ := h
    obtain ⟨⟨_, d⟩, rest, rfl, rfl, hrest⟩ := List.map_eq_cons_iff.1 hrow
    obtain ⟨hroot, hadmits, hheight⟩ := hq _ List.mem_cons_self
    exact ⟨d, rest, rfl, hroot, hadmits, hheight, hrest, fun e he => hq e (by simp [he])⟩
  · intro h
    obtain ⟨d, rest, rfl, hroot, hadmits, hheight, hrest, hq⟩ := h
    refine ⟨by simp [hrest], ?_⟩
    simpa [hroot, hadmits, hheight] using hq

theorem grows_append_iff {row later : List Site} {queue : List (Site × Derivation)} :
    Grows s levels (row ++ later) queue ↔
      ∃ first second, queue = first ++ second ∧ Grows s levels row first ∧
        Grows s levels later second := by
  apply Iff.intro
  · intro h
    obtain ⟨hrow, hq⟩ := h
    obtain ⟨first, second, rfl, hfirst, hsecond⟩ := List.map_eq_append_iff.1 hrow
    exact ⟨first, second, rfl, ⟨hfirst, fun e he => hq e (by simp [he])⟩,
      hsecond, fun e he => hq e (by simp [he])⟩
  · intro h
    obtain ⟨first, second, rfl, ⟨hfirst, hqf⟩, hsecond, hqs⟩ := h
    refine ⟨by simp [hfirst, hsecond], fun e he => ?_⟩
    exact (List.mem_append.1 he).elim (hqf e) (hqs e)

theorem grows_newSites_iff {index id : Nat} {tokens : List String}
    {queue : List (Site × Derivation)} :
    Grows s levels (newSites site index id tokens) queue ↔
      ∃ ds, queue = adjacent site index id ds ∧ ds.map Derivation.root = tokens ∧
        ∀ d ∈ ds, s.Admits (site.depth + 1) d ∧ d.height ≤ levels := by
  induction tokens generalizing index id queue with
  | nil =>
      rw [newSites, grows_nil_iff]
      apply Iff.intro
      · intro h
        subst h
        exact ⟨[], rfl, rfl, by simp⟩
      · intro h
        obtain ⟨ds, rfl, hroots, -⟩ := h
        obtain rfl := List.map_eq_nil_iff.1 hroots
        rfl
  | cons token tokens ih =>
      rw [newSites, grows_cons_iff]
      apply Iff.intro
      · intro h
        obtain ⟨d, rest, rfl, hroot, hadmits, hheight, hrest⟩ := h
        obtain ⟨ds, rfl, hroots, hds⟩ := ih.1 hrest
        have hroot : d.root = token := hroot
        refine ⟨d :: ds, by rw [adjacent, hroot], by simp [hroot, hroots], ?_⟩
        simpa using ⟨⟨hadmits, hheight⟩, hds⟩
      · intro h
        obtain ⟨ds, rfl, hroots, hds⟩ := h
        obtain ⟨d, ds, rfl, rfl, rfl⟩ := List.map_eq_cons_iff.1 hroots
        obtain ⟨hadmits, hheight⟩ := hds d (by simp)
        refine ⟨d, _, rfl, rfl, hadmits, hheight, ih.2 ⟨ds, rfl, rfl, fun e he => ?_⟩⟩
        exact hds e (by simp [he])

/-- Whether the sites are those of the next nodes after `nodes`. -/
def Contiguous (nodes : List Node) (row : List Site) : Prop :=
  row.map (·.id) = List.range' nodes.length row.length

theorem contiguous_cons_iff (node : Node) {row : List Site} :
    Contiguous nodes (site :: row) ↔ site.id = nodes.length ∧ Contiguous (nodes ++ [node]) row := by
  simp [Contiguous, List.range'_succ]

theorem Contiguous.expand {row : List Site} (h : Contiguous nodes (site :: row)) (node : Node)
    (tokens : List String) {id : Nat} (hid : id = nodes.length + (site :: row).length) :
    Contiguous (nodes ++ [node]) (row ++ newSites site 0 id tokens) ∧
      (nodes ++ [node]).length + (row ++ newSites site 0 id tokens).length =
        id + tokens.length := by
  have hrow := ((contiguous_cons_iff node).1 h).2
  have hcount : (nodes ++ [node]).length + row.length = id := by
    simp [hid, Nat.add_assoc, Nat.add_comm 1]
  have hlength : (row ++ newSites site 0 id tokens).length = row.length + tokens.length := by
    rw [List.length_append, length_newSites]
  constructor
  · rw [Contiguous, List.map_append, hlength, map_id_newSites, hrow, ← hcount, List.range'_append_1]
  · rw [hlength, ← Nat.add_assoc, hcount]

def waiting (s : Setting) (row : List Site) : List Site := row.filter (s.grammar.defines ·.symbol)

/-- A derivation from a row of new sites succeeds if and only if derivations grow there. -/
def Expands (s : Setting) (choose : Chooser σ) (levels : Nat) : Prop :=
  ∀ nodes row source after, Contiguous nodes row →
    (expandAll s choose levels (waiting s row)
        ⟨.ofNodes (nodes ++ row.map fun site => s.fresh site.symbol), source⟩ =
          some (.ok (), after) ↔
      ∃ queue, Grows s levels row queue ∧ s.Leads choose source nodes (nodes.length + row.length)
        (lay (nodes.length + row.length) queue) after)

theorem expandLevel_cons_eq_ok_iff {growth : Growth σ} {row later : List Site} :
    (∃ next middle, expandLevel s choose (site :: row) growth = some (.ok next, middle) ∧
        expandAll s choose levels (later ++ next) middle = some (.ok (), after)) ↔
      ∃ kids first, expand s choose site growth = some (.ok kids, first) ∧
        ∃ next middle, expandLevel s choose row first = some (.ok next, middle) ∧
          expandAll s choose levels (later ++ kids ++ next) middle = some (.ok (), after) := by
  simp only [expandLevel, Run.bind_eq_ok_iff, Run.pure_eq_ok_iff]
  apply Iff.intro
  · intro h
    obtain ⟨_, _, ⟨kids, first, hfirst, next, middle, hnext, rfl, rfl⟩, hall⟩ := h
    exact ⟨kids, first, hfirst, next, middle, hnext, by rwa [List.append_assoc]⟩
  · intro h
    obtain ⟨kids, first, hfirst, next, middle, hnext, hall⟩ := h
    exact ⟨_, _, ⟨kids, first, hfirst, next, middle, hnext, rfl, rfl⟩, by rwa [← List.append_assoc]⟩

theorem waiting_append (row later : List Site) :
    waiting s (row ++ later) = waiting s row ++ waiting s later :=
  List.filter_append _ _

theorem lay_cons (id : Nat) (d : Derivation) (queue : List (Site × Derivation)) :
    lay id ((site, d) :: queue) =
      (site, nodeAt id d) ::
        lay (id + d.children.length) (queue ++ adjacent site 0 id d.children) := by
  rw [lay]

theorem leads_lay_node_iff {id rule : Nat} {symbol : String} {ds : List Derivation}
    {queue : List (Site × Derivation)} (hid : id = nodes.length + (queue.length + 1)) :
    s.Leads choose source nodes id (lay id ((site, .node symbol rule ds) :: queue)) after ↔
      ∃ options next, s.options site.symbol site.depth = .ok options ∧
        choose site options source = some (rule, next) ∧ s.MayGrow id (id + ds.length) ∧
        s.Leads choose next (nodes ++ [⟨symbol, .expanded rule (List.range' id ds.length)⟩])
          (id + ds.length) (lay (id + ds.length) (queue ++ adjacent site 0 id ds)) after := by
  rw [lay_cons]
  refine Setting.leads_cons_expanded_iff.trans (exists₂_congr fun options next => ?_)
  refine and_congr_right' (and_congr_right' (Setting.leads_grow_iff (Nat.le_add_right _ _) ?_))
  have hqueue := Derivation.length_le_sizes (queue.map (·.2))
  have hds := Derivation.length_le_sizes ds
  rw [length_lay, List.map_append, Derivation.sizes_append, map_snd_adjacent, Derivation.children]
  simp only [List.length_append, List.length_singleton, List.length_map] at hqueue ⊢
  omega

theorem resolve_fresh (hid : site.id = nodes.length) (row : List Site) (state : NodeState)
    (id : Nat) (tokens : List String) :
    (Tree.ofNodes (nodes ++ (site :: row).map (fun site => s.fresh site.symbol) ++
        tokens.map s.fresh)).resolve site.id state =
      .ofNodes (nodes ++ [⟨site.symbol, state⟩] ++
        (row ++ newSites site 0 id tokens).map fun site => s.fresh site.symbol) := by
  rw [List.map_cons, List.append_assoc, List.cons_append, hid, Tree.resolve_ofNodes,
    List.map_append, map_fresh_newSites, List.append_assoc, List.singleton_append]
  rfl

def expandedAt (s : Setting) (site : Site) (rule id : Nat) : Node :=
  ⟨site.symbol, .expanded rule (List.range' id (s.tokens site.symbol rule).length)⟩

theorem expand_first_iff {row later : List Site} {id : Nat}
    (hids : Contiguous nodes (site :: (row ++ later)))
    (hid : id = nodes.length + (site :: (row ++ later)).length) :
    (∃ kids first, expand s choose site
          ⟨.ofNodes (nodes ++ (site :: (row ++ later)).map fun site => s.fresh site.symbol),
            source⟩ = some (.ok kids, first) ∧
        ∃ next middle, expandLevel s choose (waiting s row) first = some (.ok next, middle) ∧
          expandAll s choose levels (waiting s later ++ kids ++ next) middle =
            some (.ok (), after)) ↔
      ∃ options rule middle, s.options site.symbol site.depth = .ok options ∧
        choose site options source = some (rule, middle) ∧
        s.MayGrow id (id + (s.tokens site.symbol rule).length) ∧
        ∃ next last, expandLevel s choose (waiting s row)
            ⟨.ofNodes (nodes ++ [expandedAt s site rule id] ++
              (row ++ (later ++ newSites site 0 id (s.tokens site.symbol rule))).map fun site =>
                s.fresh site.symbol), middle⟩ = some (.ok next, last) ∧
          expandAll s choose levels
            (waiting s (later ++ newSites site 0 id (s.tokens site.symbol rule)) ++ next) last =
              some (.ok (), after) := by
  have hlength : (nodes ++ (site :: (row ++ later)).map fun site => s.fresh site.symbol).length =
      id := by
    simp [hid]
  have hfirst := ((contiguous_cons_iff ⟨site.symbol, .pending⟩).1 hids).1
  simp only [expand_eq_ok_iff, hlength, resolve_fresh hfirst _ _ id, waiting_append]
  apply Iff.intro
  · intro h
    obtain ⟨_, _, ⟨options, rule, middle, ho, hc, hgrow, rfl, rfl⟩, hmore⟩ := h
    rw [List.append_assoc row] at hmore
    exact ⟨options, rule, middle, ho, hc, hgrow, hmore⟩
  · intro h
    obtain ⟨options, rule, middle, ho, hc, hgrow, hmore⟩ := h
    rw [← List.append_assoc row] at hmore
    exact ⟨_, _, ⟨options, rule, middle, ho, hc, hgrow, rfl, rfl⟩, hmore⟩

theorem Grows.length_append {below : Nat} {row later : List Site}
    {queue rest : List (Site × Derivation)} (hqueue : Grows s levels row queue)
    (hrest : Grows s below later rest) : (queue ++ rest).length = (row ++ later).length := by
  rw [List.length_append, List.length_append, ← hqueue.1, ← hrest.1, List.length_map,
    List.length_map]

theorem leads_first_iff (hobeys : choose.Obeys s) (hd : s.grammar.defines site.symbol = true)
    {row later : List Site} {id : Nat} (hid : id = nodes.length + (site :: (row ++ later)).length) :
    (∃ queue rest, Grows s (levels + 1) (site :: row) queue ∧ Grows s levels later rest ∧
        s.Leads choose source nodes id (lay id (queue ++ rest)) after) ↔
      ∃ options rule next, s.options site.symbol site.depth = .ok options ∧
        choose site options source = some (rule, next) ∧
        s.MayGrow id (id + (s.tokens site.symbol rule).length) ∧
        ∃ queue rest, Grows s (levels + 1) row queue ∧
          Grows s levels (later ++ newSites site 0 id (s.tokens site.symbol rule)) rest ∧
          s.Leads choose next (nodes ++ [expandedAt s site rule id])
            (id + (s.tokens site.symbol rule).length)
            (lay (id + (s.tokens site.symbol rule).length) (queue ++ rest)) after := by
  apply Iff.intro
  · intro h
    obtain ⟨_, rest, hfirst, hrest, hleads⟩ := h
    obtain ⟨d, queue, rfl, hroot, hadmits, hheight, hqueue⟩ := grows_cons_iff.1 hfirst
    obtain ⟨rule, ds, rfl⟩ := hadmits.exists_node hroot hd
    obtain ⟨-, hroots, hds⟩ := Setting.admits_node_iff.1 ⟨hadmits, hheight⟩
    rw [List.length_cons, ← hqueue.length_append hrest] at hid
    obtain ⟨options, next, ho, hc, hgrow, hleads⟩ := (leads_lay_node_iff hid).1 hleads
    have hlen : ds.length = (s.tokens site.symbol rule).length := by
      rw [← hroots, List.length_map]
    rw [hlen, List.append_assoc] at hleads
    refine ⟨options, rule, next, ho, hc, hlen ▸ hgrow, queue, _, hqueue, ?_, hleads⟩
    exact grows_append_iff.2 ⟨rest, _, rfl, hrest, grows_newSites_iff.2 ⟨ds, rfl, hroots, hds⟩⟩
  · intro h
    obtain ⟨options, rule, next, ho, hc, hgrow, queue, _, hqueue, hlater, hleads⟩ := h
    obtain ⟨rest, _, rfl, hrest, hkids⟩ := grows_append_iff.1 hlater
    obtain ⟨ds, rfl, hroots, hds⟩ := grows_newSites_iff.1 hkids
    have hlen : ds.length = (s.tokens site.symbol rule).length := by
      rw [← hroots, List.length_map]
    rw [List.length_cons, ← hqueue.length_append hrest] at hid
    obtain ⟨hadmits, hheight⟩ := Setting.admits_node_iff.2
      ⟨⟨options, ho, hobeys _ _ _ _ _ ho hc⟩, hroots, hds⟩
    refine ⟨(site, .node site.symbol rule ds) :: queue, rest, ?_, hrest, ?_⟩
    · exact grows_cons_iff.2 ⟨_, _, rfl, rfl, hadmits, hheight, hqueue⟩
    · refine (leads_lay_node_iff hid).2 ⟨options, next, ho, hc, hlen ▸ hgrow, ?_⟩
      rw [hlen, List.append_assoc]
      exact hleads

theorem leads_leaf_iff (hd : s.grammar.defines site.symbol = false) {row later : List Site}
    {below id : Nat} :
    (∃ queue rest, Grows s levels (site :: row) queue ∧ Grows s below later rest ∧
        s.Leads choose source nodes id (lay id (queue ++ rest)) after) ↔
      ∃ queue rest, Grows s levels row queue ∧ Grows s below later rest ∧
        s.Leads choose source (nodes ++ [s.fresh site.symbol]) id (lay id (queue ++ rest))
          after := by
  have hfresh : s.fresh site.symbol = ⟨site.symbol, .leaf⟩ := by
    simp [Setting.fresh, Setting.stateOf, hd]
  rw [hfresh]
  apply Iff.intro
  · intro h
    obtain ⟨_, rest, hfirst, hrest, hleads⟩ := h
    obtain ⟨d, queue, rfl, hroot, hadmits, -, hqueue⟩ := grows_cons_iff.1 hfirst
    have hleaf := hadmits.eq_leaf (by rw [hroot, hd])
    rw [hleaf, hroot, List.cons_append, lay_cons] at hleads
    refine ⟨queue, rest, hqueue, hrest, ?_⟩
    simpa [Derivation.children, adjacent] using Setting.leads_cons_leaf_iff.1 hleads
  · intro h
    obtain ⟨queue, rest, hqueue, hrest, hleads⟩ := h
    refine ⟨(site, .leaf site.symbol) :: queue, rest, ?_, hrest, ?_⟩
    · exact grows_cons_iff.2 ⟨_, _, rfl, rfl, .leaf hd, Nat.zero_le _, hqueue⟩
    · rw [List.cons_append, lay_cons]
      refine Setting.leads_cons_leaf_iff.2 ?_
      simpa [Derivation.children, adjacent] using hleads

/-- Of a row the derivations may grow a level higher than of the sites after it. -/
theorem expandLevel_iff (hobeys : choose.Obeys s) (hexpands : Expands s choose levels)
    {row later : List Site} (hids : Contiguous nodes (row ++ later)) :
    (∃ next middle, expandLevel s choose (waiting s row)
          ⟨.ofNodes (nodes ++ (row ++ later).map fun site => s.fresh site.symbol), source⟩ =
            some (.ok next, middle) ∧
        expandAll s choose levels (waiting s later ++ next) middle = some (.ok (), after)) ↔
      ∃ queue rest, Grows s (levels + 1) row queue ∧ Grows s levels later rest ∧
        s.Leads choose source nodes (nodes.length + (row ++ later).length)
          (lay (nodes.length + (row ++ later).length) (queue ++ rest)) after := by
  -- the first site of the row goes to the settled nodes, and its children go to the end of `later`
  induction row generalizing nodes later source with
  | nil =>
      simp only [waiting, List.filter_nil, expandLevel, Run.pure_eq_ok_iff, grows_nil_iff]
      apply Iff.intro
      · intro h
        obtain ⟨_, _, ⟨rfl, rfl⟩, hall⟩ := h
        rw [List.append_nil] at hall
        obtain ⟨rest, hrest, hleads⟩ := (hexpands _ _ _ _ hids).1 hall
        exact ⟨[], rest, rfl, hrest, hleads⟩
      · intro h
        obtain ⟨_, rest, rfl, hrest, hleads⟩ := h
        refine ⟨[], _, ⟨rfl, rfl⟩, ?_⟩
        rw [List.append_nil]
        exact (hexpands _ _ _ _ hids).2 ⟨rest, hrest, hleads⟩
  | cons site row ih =>
      rw [List.cons_append] at hids ⊢
      cases hd : s.grammar.defines site.symbol with
      | false =>
          have hwait : waiting s (site :: row) = waiting s row := by simp [waiting, hd]
          have hcount : nodes.length + (site :: (row ++ later)).length =
              (nodes ++ [s.fresh site.symbol]).length + (row ++ later).length := by
            simp [Nat.add_assoc, Nat.add_comm 1]
          rw [hwait, leads_leaf_iff hd, List.map_cons, List.append_cons, hcount]
          exact ih ((contiguous_cons_iff _).1 hids).2
      | true =>
          have hwait : waiting s (site :: row) = site :: waiting s row := by simp [waiting, hd]
          rw [hwait, expandLevel_cons_eq_ok_iff, leads_first_iff hobeys hd rfl]
          refine (expand_first_iff hids rfl).trans (exists₃_congr fun options rule middle => ?_)
          refine and_congr_right' (and_congr_right' (and_congr_right' ?_))
          have hkids := Contiguous.expand hids (expandedAt s site rule
            (nodes.length + (site :: (row ++ later)).length)) (s.tokens site.symbol rule) rfl
          rw [List.append_assoc] at hkids
          rw [← hkids.2]
          exact ih hkids.1

theorem exists_grows_iff_of_waiting_eq_nil {row : List Site} (h : waiting s row = []) :
    (∃ queue, Grows s levels row queue ∧ s.Leads choose source nodes (nodes.length + row.length)
        (lay (nodes.length + row.length) queue) after) ↔
      after = ⟨.ofNodes (nodes ++ row.map fun site => s.fresh site.symbol), source⟩ := by
  induction row generalizing nodes with
  | nil =>
      have hlay (id : Nat) : lay id [] = [] := by rw [lay]
      simp [grows_nil_iff, hlay, Setting.leads_nil_iff]
  | cons site row ih =>
      have hd : s.grammar.defines site.symbol = false := by
        by_contra hd
        simp [waiting, hd] at h
      have hrow : waiting s row = [] := by simpa [waiting, hd] using h
      have hcount : nodes.length + (site :: row).length =
          (nodes ++ [s.fresh site.symbol]).length + row.length := by
        simp [Nat.add_assoc, Nat.add_comm 1]
      have hleaf := @leads_leaf_iff σ s choose levels source nodes after site hd row [] levels
        (nodes.length + (site :: row).length)
      simp only [grows_nil_iff, exists_and_left, exists_eq_left, List.append_nil] at hleaf
      rw [hleaf, hcount, ih hrow, List.map_cons, ← List.append_cons]

/-- As many levels are expanded as the derivations that grow are high. -/
theorem expands (hobeys : choose.Obeys s) (levels : Nat) : Expands s choose levels := by
  induction levels with
  | zero =>
      intro nodes row source after hids
      cases hwait : waiting s row with
      | nil =>
          rw [exists_grows_iff_of_waiting_eq_nil hwait, expandAll, Run.pure_eq_ok_iff]
          simp [eq_comm]
      | cons site more =>
          refine iff_of_false (by simp [expandAll, Run.endless_apply]) ?_
          intro h
          obtain ⟨queue, ⟨hrow, hq⟩, -⟩ := h
          have hmem : site ∈ waiting s row := by simp [hwait]
          obtain ⟨hmem, hd⟩ := List.mem_filter.1 hmem
          rw [← hrow] at hmem
          obtain ⟨e, he, rfl⟩ := List.mem_map.1 hmem
          obtain ⟨hroot, hadmits, hheight⟩ := hq e he
          exact absurd (hadmits.height_pos (by rw [hroot, hd])) (by omega)
  | succ levels ih =>
      intro nodes row source after hids
      have hstep : expandAll s choose (levels + 1) (waiting s row) =
          expandLevel s choose (waiting s row) >>= expandAll s choose levels := by
        cases waiting s row with
        | nil => simp [expandAll, expandLevel]
        | cons site more => rfl
      have hlevel := @expandLevel_iff σ s choose levels source nodes after hobeys ih row []
        (by simpa using hids)
      simp only [grows_nil_iff, exists_and_left, exists_eq_left, List.append_nil] at hlevel
      rw [hstep, Run.bind_eq_ok_iff, ← hlevel]
      simp [waiting]

end LevelOrder

end GrammarSampler
