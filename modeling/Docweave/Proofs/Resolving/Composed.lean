import Docweave.Proofs.References.Settling
import Docweave.Proofs.References.Texts
import Docweave.Proofs.Resolving.Caching

/-!
Composing comes to what resolving comes to.

A resolver goes through the children of a document once and writes each back before it takes the
next; composing goes over references again and again until none is left.  The two meet in what a
document stands for.  A value that is resolved is what its path comes to in the structured document
(`Sources.Resolves.comes`), and a child that is replaced by what it comes to leaves everything
else coming to the same (`Comes.of_put`).

The induction is on the children that are still to be resolved, and the last one comes first: when
none is left the document has no directive text and stands for itself, and each child before puts
its own references back in.  That order matters.  A later child may refer to a node that is there
only since an earlier one was resolved; in the document before, the path of that node leads through
a reference.
-/

namespace Docweave

open Value (directiveTexts)

variable {markers : List String} {D r u v : Value} {l p q : Path} {token : String}

/-! ### Putting what a path comes to in its place -/

namespace Comes

theorem child (h : Comes markers D p v) (hc : v.child? token = some u) :
    Comes markers D (p.child token) u := by
  induction h with
  | @hop l t q v hl _ ih =>
      rw [Path.child, List.append_assoc]
      refine .hop hl ?_
      rw [← List.append_assoc]
      exact ih hc
  | node _ _ _ _ hchildren _ => exact hchildren token u hc

/-- Below a path stand the nodes of what it comes to. -/
theorem append (h : Comes markers D p v) (hn : v.node? q = some u) :
    Comes markers D (p ++ q) u := by
  induction q generalizing p v with
  | nil =>
      rw [List.append_nil]
      exact Option.some.inj ((Value.node?_nil v).symm.trans hn) ▸ h
  | cons token q ih =>
      rw [Value.node?_cons] at hn
      obtain ⟨c, hc, hn⟩ := Option.bind_eq_some_iff.mp hn
      have hbelow := ih (h.child hc) hn
      rwa [Path.child, List.append_assoc] at hbelow

theorem of_scalar (hfree : Directive.referenceMarker ∉ p) (hn : D.node? p = some v)
    (hscalar : v.isContainer = false) : Comes markers D p v := by
  refine .node hfree hn (isDirective_eq_false_of_isContainer hscalar) rfl fun token u hu => ?_
  have hmem := Value.mem_entries_of_child? hu
  rw [Value.entries_of_isContainer_eq_false hscalar] at hmem
  exact absurd hmem List.not_mem_nil

/-- **If a node is exchanged for what it comes to, what the document comes to then it came to
before.** -/
theorem of_put (hmarker : Directive.referenceMarker ∈ markers)
    (hfree : Directive.referenceMarker ∉ l) (hn : (D.node? l).isSome = true)
    (hl : Comes markers D l r)
    (hplain : ∀ q w, r.node? q = some w → isDirective markers w = false)
    (hwell : (D.put l r).WellFormed) (hrefs : RefsOnly markers (D.put l r))
    (h : Comes markers (D.put l r) p v) : Comes markers D p v := by
  induction h with
  | @hop l' t q v hpoints _ ih =>
      obtain ⟨raw, hraw, htarget⟩ := hpoints
      have hdirective := isDirective_reference hmarker raw
      have hbelow : ¬ l <+: l' := by
        rintro ⟨q, rfl⟩
        rw [Value.node?_put_append hn] at hraw
        exact absurd ((hplain q _ hraw).symm.trans hdirective) (by simp)
      have habove : ¬ l' <+: l := by
        rintro ⟨q, rfl⟩
        have hq : q ≠ [] := fun heq => hbelow (by rw [heq, List.append_nil])
        have heq := (hrefs.eq_of_below hraw hdirective hq (Value.node?_put_self hn r)).1
        exact hfree (List.mem_append_right l' (by rw [heq]; exact List.mem_singleton_self _))
      refine .hop ⟨raw, ?_, htarget⟩ ih
      rw [← Value.node?_put_beside D hbelow habove r, hraw]
  | @node p w v hpfree hw hwplain hhead hchildren ih =>
      by_cases hbelow : l <+: p
      · obtain ⟨q, rfl⟩ := hbelow
        have hq := hw
        rw [Value.node?_put_append hn] at hq
        -- At and below the node that was put everything stands for itself.
        have hself : Comes markers (D.put l r) (l ++ q) w :=
          comes_of_no_directive_below hmarker (fun q' w' hw' => hplain (q ++ q') w'
            (by rw [Value.node?_append, hq, Option.bind_some, hw'])) hpfree hw
        have hv : Comes markers (D.put l r) (l ++ q) v :=
          .node hpfree hw hwplain hhead hchildren
        obtain rfl := hv.unique hmarker hrefs hwell hself
        exact hl.append hq
      · obtain ⟨old, hold, heq⟩ := Value.head_node?_of_put hbelow hw
        exact .node hpfree hold ((isDirective_of_head_eq heq).symm.trans hwplain)
          (hhead.trans heq) ih

end Comes

/-! ### What is resolved -/

namespace Sources

variable {s : Sources} {w : Value} {t : Target} {raw payload : String}

/-- The target of a reference text is that of the reference. -/
theorem target?_of_referenceTarget? (hpayload : Pointer.referenceTarget? raw = some payload)
    (ht : s.target? raw = some t) : ∃ first rest, t = .node first rest ∧
      Directive.target [(Directive.referenceMarker, .text payload)] Directive.referenceMarker =
        .ok (first :: rest) := by
  have hreference : Pointer.isReferenceText raw = true := by
    rw [← Pointer.referenceTarget?_isSome, hpayload, Option.isSome_some]
  rw [target?] at ht
  obtain ⟨flaw, hparse⟩ | ⟨first, rest, hparse⟩ := Pointer.parse_of_isReferenceText hreference
  · rw [hparse] at ht
    exact absurd ht (by simp)
  · rw [hparse] at ht
    exact ⟨first, rest, (Option.some.inj ht).symm, Directive.target_of_parse hpayload hparse⟩

/-- Where no text names a file, a directive text is a reference to a node. -/
theorem exists_node_of_directive (hraw : isDirectiveText raw = true)
    (hfile : Pointer.isFileText raw = false) (ht : s.target? raw = some t) :
    ∃ payload first rest, Pointer.referenceTarget? raw = some payload ∧ t = .node first rest ∧
      Directive.target [(Directive.referenceMarker, .text payload)] Directive.referenceMarker =
        .ok (first :: rest) := by
  rw [isDirectiveText, hfile, Bool.or_false, ← Pointer.referenceTarget?_isSome] at hraw
  obtain ⟨payload, hpayload⟩ := Option.isSome_iff_exists.mp hraw
  obtain ⟨first, rest, rfl, htarget⟩ := target?_of_referenceTarget? hpayload ht
  exact ⟨payload, first, rest, hpayload, rfl, htarget⟩

/-- The references in a value that can be resolved do not lead into one. -/
theorem Resolvable.refsOnly (hmarker : Directive.referenceMarker ∈ markers)
    (hdocument : TextsOnly markers s.document) (h : s.Resolvable v) (hv : TextsOnly markers v) :
    RefsOnly markers v.structured := by
  refine hv.refsOnly fun raw hraw payload hpayload target htarget => ?_
  obtain ⟨t, ht, hcontent, -⟩ := h raw (.here hraw)
  obtain ⟨first, rest, rfl, heq⟩ := target?_of_referenceTarget? hpayload ht
  obtain rfl := Except.ok.inj (heq.symm.trans htarget)
  exact hdocument.marker_not_mem hmarker hcontent

/-- Values without other directives become such values. -/
theorem Resolves.textsOnly (h : s.Resolves v w) (hdocument : TextsOnly markers s.document)
    (hv : TextsOnly markers v) : TextsOnly markers w := by
  induction h using Resolves.induction with
  | null | bool | number | text => exact hv
  | directive raw t v w hraw ht hcontent _ ih =>
      cases hv with
      | text hfile =>
          obtain ⟨-, first, rest, -, rfl, -⟩ := exists_node_of_directive hraw hfile ht
          exact ih (hdocument.of_node? hcontent)
  | list vs ws _ hitems =>
      cases hv with
      | list hlength h =>
          refine .list (hitems.length_eq ▸ hlength) fun w hw => ?_
          obtain ⟨v, hv, -, hbecomes⟩ := exists_of_mem_right hitems hw
          exact hbecomes (h v hv)
  | map es fs _ hfields =>
      cases hv with
      | map hplain h =>
          have hkeys := keys_eq_of_forall₂ (hfields.imp fun e f h => h.1)
          refine .map ?_ fun f hf => ?_
          · rw [← hplain]
            exact isDirective_of_head_eq (by rw [Value.head, Value.head, hkeys])
          · obtain ⟨e, he, -, -, hbecomes⟩ := exists_of_mem_right hfields hf
            exact hbecomes (h e he)

/-- **What a node becomes is what its path comes to.** -/
theorem Resolves.comes (hmarker : Directive.referenceMarker ∈ markers)
    (hdocument : TextsOnly markers s.document) (h : s.Resolves v w)
    (hn : s.document.node? p = some v) : Comes markers s.document.structured p w := by
  have hfree : ∀ {p v}, s.document.node? p = some v → Directive.referenceMarker ∉ p :=
    fun hn => hdocument.marker_not_mem hmarker (Option.isSome_of_eq_some hn)
  have hnode : ∀ {p v}, s.document.node? p = some v →
      s.document.structured.node? p = some v.structured :=
    fun hn => by rw [Value.node?_structured (hfree hn), hn, Option.map_some]
  induction h using Resolves.induction generalizing p with
  | null => exact .of_scalar (hfree hn) (hnode hn) rfl
  | bool b => exact .of_scalar (hfree hn) (hnode hn) rfl
  | number n => exact .of_scalar (hfree hn) (hnode hn) rfl
  | text raw hplain =>
      have hself := Value.structured_text_of_plain (Bool.or_eq_false_iff.mp hplain).1
      exact .of_scalar (hfree hn) (hself ▸ hnode hn) rfl
  | directive raw t v w hraw ht hcontent _ ih =>
      cases hdocument.of_node? hn with
      | text hfile =>
          obtain ⟨payload, first, rest, hpayload, rfl, htarget⟩ :=
            exists_node_of_directive hraw hfile ht
          have hpoints : s.document.structured.PointsTo p (first :: rest) :=
            ⟨payload, Value.structured_text hpayload ▸ hnode hn, htarget⟩
          have hcomes := ih hcontent
          rw [← List.append_nil (first :: rest)] at hcomes
          rw [← List.append_nil p]
          exact .hop hpoints hcomes
  | list vs ws _ hitems =>
      have hlist := hnode hn
      rw [Value.structured_list] at hlist
      cases hdocument.of_node? hn with
      | list hlength _ =>
          refine .node (hfree hn) hlist rfl ?_ fun token u hu => ?_
          · rw [TextsOnly.head_list (hitems.length_eq ▸ hlength),
              TextsOnly.head_list (by rwa [List.length_map]), List.length_map, hitems.length_eq]
          · obtain ⟨c, hc, -, hcomes⟩ := Value.child?_of_forall₂_items hitems.flip hu
            exact hcomes (by rw [Value.node?_concat, hn, Option.bind_some, hc])
  | map es fs _ hfields =>
      have hmap := hnode hn
      have hhead := Value.head_structured_map es
      cases hdocument.of_node? hn with
      | map hplain _ =>
          have hkeys := keys_eq_of_forall₂ (hfields.imp fun e f h => h.1)
          refine .node (hfree hn) hmap ((isDirective_of_head_eq hhead).trans hplain) ?_
            fun token u hu => ?_
          · rw [hhead, Value.head, Value.head, hkeys]
          · obtain ⟨c, hc, hcomes⟩ := Value.child?_of_forall₂_fields
              (R := fun w v => ∀ {p}, s.document.node? p = some v →
                Comes markers s.document.structured p w)
              (hfields.flip.imp fun _ _ h => ⟨h.1.symm, h.2.2⟩) hu
            exact hcomes (by rw [Value.node?_concat, hn, Option.bind_some, hc])

end Sources

/-! ### One child after the other -/

/-- A document whose directives are texts, all of them in the children under some tokens. -/
structure Unresolved (markers tokens : List String) (v : Value) : Prop where
  wellFormed : v.WellFormed
  textsOnly : TextsOnly markers v
  container : v.isContainer = true
  done : ∀ token c, v.child? token = some c → token ∉ tokens → c.directiveTexts = []

namespace Unresolved

variable {s : Sources} {tokens : List String} {old new R : Value}

/-- Without children to be resolved a document stands for itself. -/
theorem comes_self (hmarker : Directive.referenceMarker ∈ markers)
    (h : Unresolved markers [] s.document) :
    RefsOnly markers s.document.structured ∧
      Comes markers s.document.structured [] s.document := by
  have hnone := h.textsOnly.directiveTexts_eq_nil h.wellFormed h.container
    fun token c hc => h.done token c hc List.not_mem_nil
  have hself : s.Resolves s.document s.document := Sources.resolves_self hnone
  exact ⟨hself.resolvable.refsOnly hmarker h.textsOnly h.textsOnly,
    hself.comes hmarker h.textsOnly (Value.node?_nil _)⟩

/-- A child that is replaced by what it becomes is done. -/
theorem after (h : Unresolved markers (token :: tokens) s.document)
    (hold : s.document.child? token = some old) (hnew : s.Resolves old new) :
    Unresolved markers tokens (s.after token new).document := by
  have hwell := hnew.wellFormed h.wellFormed (h.wellFormed.of_child? hold)
  have htexts := hnew.textsOnly h.textsOnly (h.textsOnly.of_child? hold)
  have hself := Value.child?_setChild_self hold new
  have hput : (s.after token new).document = Value.setChild token new s.document := by
    rw [Sources.after, Value.put_cons_of_child? hold, Value.put_nil]
  rw [hput]
  refine ⟨h.wellFormed.setChild hwell token, h.textsOnly.setChild hold htexts,
    Value.isContainer_of_child? hself, fun other c hc hother => ?_⟩
  by_cases heq : token = other
  · subst heq
    rw [Option.some.inj (hc.symm.trans hself)]
    exact hnew.directiveTexts_eq_nil
  · rw [Value.child?_setChild_of_ne _ heq] at hc
    refine h.done other c hc fun hmem => ?_
    exact (List.mem_cons.mp hmem).elim (fun hsame => heq hsame.symm) hother

/-- **A child that was replaced by what it becomes can be put back: what the structured document
comes to with it, it came to before.** -/
theorem comes_of_after (hmarker : Directive.referenceMarker ∈ markers)
    (h : Unresolved markers (token :: tokens) s.document)
    (hold : s.document.child? token = some old) (hnew : s.Resolves old new)
    (hrefs : RefsOnly markers (s.after token new).document.structured)
    (hcomes : Comes markers (s.after token new).document.structured [] R) :
    RefsOnly markers s.document.structured ∧ Comes markers s.document.structured [] R := by
  obtain ⟨hwell, htexts, hcontainer, -⟩ := h
  have hnode : s.document.node? [token] = some old := by
    rw [Value.node?_cons, hold, Option.bind_some, Value.node?_nil]
  have hfree : Directive.referenceMarker ∉ [token] :=
    htexts.marker_not_mem hmarker (Option.isSome_of_eq_some hnode)
  have hstructured : s.document.structured.child? token = some old.structured := by
    rw [Value.child?_structured (fun heq => hfree (by simp [heq])), hold, Option.map_some]
  have hself : new.structured = new :=
    Value.structured_of_directiveTexts_eq_nil hnew.directiveTexts_eq_nil
  -- The two structured documents differ in the child alone.
  have hafter :
      (s.after token new).document.structured = s.document.structured.put [token] new := by
    rw [Sources.after, Value.put_cons_of_child? hold, Value.put_nil, Value.structured_setChild hold,
      hself, Value.put_cons_of_child? hstructured, Value.put_nil]
  have hwell' : (s.document.structured.put [token] new).WellFormed :=
    hwell.structured.put (hnew.wellFormed hwell (hwell.of_child? hold)) [token]
  rw [hafter] at hrefs hcomes
  have hresolved := hnew.textsOnly htexts (htexts.of_child? hold)
  constructor
  · have hback : s.document.structured =
        Value.setChild token old.structured (s.document.structured.put [token] new) := by
      rw [Value.put_cons_of_child? hstructured, Value.put_nil,
        Value.setChild_setChild hstructured, Value.setChild_self hstructured]
    have hplain := htexts.plain_structured hcontainer
    refine .node (fun hd => absurd (hplain.symm.trans hd) Bool.false_ne_true) fun e he => ?_
    rw [hback] at he
    rcases Value.mem_entries_setChild he with heq | he
    · rw [heq]
      exact hnew.resolvable.refsOnly hmarker htexts (htexts.of_child? hold)
    · exact hrefs.of_entry he
  · have hsome : (s.document.structured.node? [token]).isSome = true := by
      rw [Value.node?_cons, hstructured, Option.bind_some, Value.node?_nil, Option.isSome_some]
    exact .of_put hmarker hfree hsome (hnew.comes hmarker htexts hnode)
      (fun q w hw => (hresolved.of_node? hw).plain) hwell' hrefs hcomes

end Unresolved

namespace Resolver

variable {s : Sources} {store store' : Store} {r r' : Resolver} {content : Value}

/-- **Where resolving the children of a document ends without a fault, the structured document comes
to what it ends with.** -/
theorem resolveChildren_comes (hmarker : Directive.referenceMarker ∈ markers) (tokens : List String)
    (hsound : store.Sound) (hdocument : store.content = s.document) (hkeeps : Keeps s [] r)
    (hunresolved : Unresolved markers tokens s.document)
    (h : resolveChildren s.files (tokens.map fun token => [token]) store r =
      (.ok (), store', r')) :
    RefsOnly markers s.document.structured ∧
      Comes markers s.document.structured [] store'.content := by
  induction tokens generalizing s store r with
  | nil =>
      obtain ⟨-, h⟩ := Prod.mk.inj h
      obtain ⟨rfl, -⟩ := Prod.mk.inj h
      exact hdocument ▸ hunresolved.comes_self hmarker
  | cons token tokens ih =>
      obtain ⟨old, new, written, r'', hchild, hrun, hupdate, h⟩ :=
        resolveChildren_cons_eq_ok hsound h
      have hold : s.document.child? token = some old := hdocument ▸ hchild
      have hnode : s.document.node? [token] = some old := by simpa [Value.node?_cons] using hold
      have hwell : s.document.WellFormed := hunresolved.wellFormed
      have hanswer := named_value_answers hsound hdocument old token r hkeeps
      rw [hrun] at hanswer
      obtain ⟨hreply, hkeeps', -, -, -⟩ := hanswer
      cases hreply with
      | ok hnew =>
          have hnewwell := hnew.wellFormed hwell (hwell.of_child? hold)
          have hwritten := Store.content_update_plain hsound (List.cons_ne_nil token [])
            (hdocument ▸ hnode) hnewwell hupdate
          obtain ⟨hrefs, hcomes⟩ := ih (s := s.after token new)
            (hsound.update hnewwell hupdate)
            (hwritten.trans (congrArg (·.put [token] new) hdocument))
            (hkeeps'.after hnode hnew) (hunresolved.after hold hnew) h
          exact hunresolved.comes_of_after hmarker hold hnew hrefs hcomes

end Resolver

/-- **Composing refines resolving: where a document with references as texts is resolved without a
fault, the structured document is composed without one, to the same document.** -/
theorem composeValue_structured {σ : Type} {generators : Generators σ} {world : σ}
    {options : ComposeOptions} {setting : Setting} {files : Files} {resolve : ResolveOptions}
    {content resolved : Value} (hwell : content.WellFormed)
    (htexts : TextsOnly Composer.standardMarkers content) (hcontainer : content.isContainer = true)
    (h : resolveValue files resolve content = .ok resolved) :
    composeValue setting generators world options content.structured = some (.ok resolved) := by
  have hmarker : Directive.referenceMarker ∈ Composer.standardMarkers := List.mem_cons_self
  obtain ⟨tokens, htokens⟩ := Resolver.childPaths_eq content
  have hunresolved : Unresolved Composer.standardMarkers tokens content := by
    refine ⟨hwell, htexts, hcontainer, fun token c hc hnot => absurd ?_ hnot⟩
    obtain ⟨token', hmem, heq⟩ := List.mem_map.mp (htokens ▸ Resolver.mem_childPaths hc)
    exact List.singleton_inj.mp heq ▸ hmem
  obtain ⟨backend, caching, base?⟩ := resolve
  rw [resolveValue, Resolver.resolveAll, Store.content_wrap, htokens] at h
  rcases hrun : Resolver.resolveChildren files (tokens.map fun token => [token])
    (Store.wrap backend content) (Resolver.new caching base?) with ⟨_ | ⟨⟩, store, r⟩
  · rw [hrun] at h
    exact absurd h (by simp)
  rw [hrun] at h
  obtain rfl : store.content = resolved := Except.ok.inj h
  obtain ⟨hrefs, hcomes⟩ := Resolver.resolveChildren_comes hmarker tokens
    (s := ⟨content, files, ⟨base?⟩⟩) (Store.sound_wrap hwell backend)
    (Store.content_wrap backend content) (Resolver.keeps_new _ caching base? rfl) hunresolved hrun
  obtain ⟨composer, hcompose, hcontent⟩ : ∃ composer,
      (Composer.standard generators world options content.structured).compose setting =
        some (.ok (), composer) ∧ composer.store.content = store.content :=
    (Composer.compose_iff_comes hwell.structured hrefs).mpr hcomes
  rw [composeValue, hcompose, ← hcontent]

/-- A document in which a reference leads through another. -/
def referenceThrough : Value :=
  .map [("a", .map [("x", .text "!ref /c")]), ("b", .text "!ref /a/x/y"),
    ("c", .map [("y", .bool true)])]

/-- The document with the references as they end. -/
def referenceThroughResolved : Value :=
  .map [("a", .map [("x", .map [("y", .bool true)])]), ("b", .bool true),
    ("c", .map [("y", .bool true)])]

/-- The node that the second reference leads to is there once the first is resolved. -/
theorem composeValue_reference_through :
    referenceThrough.WellFormed ∧ TextsOnly Composer.standardMarkers referenceThrough ∧
      referenceThrough.isContainer = true ∧
      resolveValue .none {} referenceThrough = .ok referenceThroughResolved ∧
      composeValue Composer.bareSetting .empty () {} referenceThrough.structured =
        some (.ok referenceThroughResolved) := by
  have hwell : referenceThrough.WellFormed := by
    simp [referenceThrough, Value.wellFormed_map_iff, Entries.Distinct, Entries.keys]
  have htexts : TextsOnly Composer.standardMarkers referenceThrough := by
    have hx : TextsOnly Composer.standardMarkers (.text "!ref /c") := .text (by decide)
    have hb : TextsOnly Composer.standardMarkers (.text "!ref /a/x/y") := .text (by decide)
    refine .map (by decide) ?_
    simp only [List.forall_mem_cons, List.not_mem_nil, IsEmpty.forall_iff, implies_true, and_true]
    refine ⟨.map (by decide) ?_, hb, .map (by decide) ?_⟩
    · simpa using hx
    · simpa using TextsOnly.bool true
  have hresolve : resolveValue .none {} referenceThrough = .ok referenceThroughResolved := by cbv
  exact ⟨hwell, htexts, rfl, hresolve, composeValue_structured hwell htexts rfl hresolve⟩

end Docweave
