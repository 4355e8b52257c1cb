import Docweave.Document
import Docweave.Proofs.Resolving.Caching
import Docweave.Proofs.Store.Texts

/-!
A document that allows references never holds a directive text.

A directive text can come with the content that a document is opened with, inside of a value that
is written, with the content of a file, and with what the resolver remembers, which may be long out
of date.  Each of them goes through the resolver before it is written, and whatever the resolver
answers or remembers has no directive text left (`Resolver.Yields`): that does not depend on the
document nor on the files it was resolved against, so it outlives any change of either.  A failed
update changes nothing but what the resolver remembers.
-/

namespace Docweave

/-- No map in the value has a key twice, and no text in it is written as a directive. -/
structure Value.Resolved (v : Value) : Prop where
  wellFormed : v.WellFormed
  texts : ∀ raw ∈ v.texts, isDirectiveText raw = false

namespace Value

theorem resolved_list_iff {items : List Value} :
    (list items).Resolved ↔ ∀ v ∈ items, v.Resolved := by
  constructor
  · intro h v hv
    exact ⟨wellFormed_list_iff.mp h.wellFormed v hv,
      fun raw hraw => h.texts raw (mem_texts_list.mpr ⟨v, hv, hraw⟩)⟩
  · intro h
    refine ⟨wellFormed_list_iff.mpr fun v hv => (h v hv).wellFormed, fun raw hraw => ?_⟩
    obtain ⟨v, hv, hraw⟩ := mem_texts_list.mp hraw
    exact (h v hv).texts raw hraw

theorem resolved_map_iff {fields : Fields} :
    (map fields).Resolved ↔ Entries.Distinct fields ∧ ∀ e ∈ fields, e.2.Resolved := by
  constructor
  · intro h
    obtain ⟨hdistinct, hwell⟩ := wellFormed_map_iff.mp h.wellFormed
    exact ⟨hdistinct, fun e he => ⟨hwell e he,
      fun raw hraw => h.texts raw (mem_texts_map.mpr ⟨e, he, hraw⟩)⟩⟩
  · rintro ⟨hdistinct, h⟩
    refine ⟨wellFormed_map_iff.mpr ⟨hdistinct, fun e he => (h e he).wellFormed⟩, fun raw hraw => ?_⟩
    obtain ⟨e, he, hraw⟩ := mem_texts_map.mp hraw
    exact (h e he).texts raw hraw

end Value

/-! ### What a resolver answers -/

namespace Resolver

/-- Everything a resolver remembers is resolved. -/
structure Clean (r : Resolver) : Prop where
  references : ∀ key v, Entries.find? r.references key = some v → v.Resolved
  files : ∀ key v, Entries.find? r.files key = some v → v.Resolved

theorem clean_new (caching : Bool) (base? : Option String) : (new caching base?).Clean :=
  ⟨fun _ _ h => absurd h (by simp [new]), fun _ _ h => absurd h (by simp [new])⟩

theorem clean_forget (r : Resolver) : r.forget.Clean :=
  ⟨fun _ _ h => absurd h (by simp [forget]), fun _ _ h => absurd h (by simp [forget])⟩

/-- The action gives good results only, and remembers nothing but what is resolved. -/
def Yields {α : Type} (x : Resolving α) (good : α → Prop) : Prop :=
  ∀ r, r.Clean → (x r).2.Clean ∧ ∀ a, (x r).1 = .ok a → good a

namespace Yields

variable {α β : Type} {good : α → Prop} {x : Resolving α}

/-- An action that only replies. -/
theorem of_reply {reply : Except Fault α} (h : ∀ a, reply = .ok a → good a)
    (hx : ∀ r, x r = (reply, r)) : Yields x good := by
  intro r hr
  rw [hx]
  exact ⟨hr, h⟩

theorem pure {a : α} (h : good a) : Yields (Pure.pure a) good :=
  of_reply (fun _ heq => Except.ok.inj heq ▸ h) fun _ => rfl

theorem bind {good' : β → Prop} {f : α → Resolving β} (hx : Yields x good)
    (hf : ∀ a, good a → Yields (f a) good') : Yields (x >>= f) good' := by
  intro r hr
  obtain ⟨hclean, hgood⟩ := hx r hr
  rcases hrun : x r with ⟨fault | a, r'⟩
  · rw [bind_of_error hrun]
    rw [hrun] at hclean
    exact ⟨hclean, fun _ h => absurd h (by simp)⟩
  · rw [bind_of_ok hrun]
    rw [hrun] at hclean hgood
    exact hf a (hgood a rfl) r' hclean

theorem named (name : String) (hx : Yields x good) : Yields (Resolver.named name x) good := by
  intro r hr
  obtain ⟨hclean, hgood⟩ := hx { r with names := r.names ++ [name] } ⟨hr.references, hr.files⟩
  exact ⟨⟨hclean.references, hclean.files⟩, hgood⟩

theorem entered (kind : TargetKind) (target : String) (hx : Yields x good) :
    Yields (Resolver.entered kind target x) good := by
  intro r hr
  rw [Resolver.entered]
  split
  · exact ⟨hr, fun _ h => absurd h (by simp)⟩
  · obtain ⟨hclean, hgood⟩ :=
      hx { r with stack := r.stack ++ [⟨r.nodePath, target⟩] } ⟨hr.references, hr.files⟩
    exact ⟨⟨hclean.references, hclean.files⟩, hgood⟩

theorem located (raw : String) {found : Except Fault Value} {good : Value → Prop}
    (h : ∀ v, found = .ok v → good v) : Yields (Resolver.located raw found) good := by
  intro r hr
  cases found with
  | ok v => exact ⟨hr, fun _ heq => h _ heq⟩
  | error source => exact ⟨hr, fun _ heq => absurd heq (by simp [Resolver.located])⟩

/-- What is looked up has been put there by a resolver, and what is put there is resolved. -/
theorem cached {entries : Resolver → Entries Value}
    {remember : Resolver → Entries Value → Resolver} {key : String} {act : Resolving Value}
    (hlookup : ∀ {r key v}, r.Clean → Entries.find? (entries r) key = some v → v.Resolved)
    (hremember : ∀ {r es}, r.Clean → (∀ key v, Entries.find? es key = some v → v.Resolved) →
      (remember r es).Clean)
    (hact : Yields act Value.Resolved) :
    Yields (Resolver.cached entries remember key act) Value.Resolved := by
  intro r hr
  obtain ⟨hclean, hgood⟩ := hact r hr
  rw [Resolver.cached]
  cases hfound : if r.caching then Entries.find? (entries r) key else none with
  | some v =>
      have hv := hlookup hr (Option.ite_none_right_eq_some.mp hfound).2
      exact ⟨hr, fun _ h => Except.ok.inj h ▸ hv⟩
  | none =>
      rcases hrun : act r with ⟨fault | v, r'⟩ <;> rw [hrun] at hclean hgood
      · exact ⟨hclean, fun _ h => absurd h (by simp)⟩
      · have hv := hgood v rfl
        refine ⟨?_, fun _ h => Except.ok.inj h ▸ hv⟩
        dsimp only
        split
        · refine hremember hclean fun key' v' h => ?_
          rw [Entries.find?_insert] at h
          split at h
          · exact Option.some.inj h ▸ hv
          · exact hlookup hclean h
        · exact hclean

/-! ### Values -/

variable {follow : String → Resolving Value}

theorem valueItems {items : List Value} {i : Nat}
    (h : ∀ v ∈ items, Yields (Resolver.value follow v) Value.Resolved) :
    Yields (Resolver.valueItems follow i items) fun items' => ∀ v ∈ items', v.Resolved := by
  induction items generalizing i with
  | nil => exact pure fun _ h => absurd h List.not_mem_nil
  | cons v vs ih =>
      obtain ⟨hv, hvs⟩ := List.forall_mem_cons.mp h
      rw [Resolver.valueItems]
      refine (hv.named (toString i)).bind fun w hw => (ih hvs).bind fun ws hws => ?_
      exact pure (List.forall_mem_cons.mpr ⟨hw, hws⟩)

theorem valueFields {fields : Fields}
    (h : ∀ e ∈ fields, Yields (Resolver.value follow e.2) Value.Resolved) :
    Yields (Resolver.valueFields follow fields) fun fields' =>
      Entries.keys fields' = Entries.keys fields ∧ ∀ e ∈ fields', e.2.Resolved := by
  induction fields with
  | nil => exact pure ⟨rfl, fun _ h => absurd h List.not_mem_nil⟩
  | cons e es ih =>
      obtain ⟨key, v⟩ := e
      obtain ⟨hv, hes⟩ := List.forall_mem_cons.mp h
      rw [Resolver.valueFields]
      refine (hv.named key).bind fun w hw => (ih hes).bind fun fs hfs => ?_
      exact pure ⟨congrArg (key :: ·) hfs.1, List.forall_mem_cons.mpr ⟨hw, hfs.2⟩⟩

/-- If following a directive gives resolved values, so does resolving any value. -/
theorem value (hfollow : ∀ raw, Yields (follow raw) Value.Resolved) {v : Value}
    (hv : v.WellFormed) : Yields (Resolver.value follow v) Value.Resolved := by
  induction v using Value.induction with
  | null | bool b | number n =>
      rw [Resolver.value]
      exact pure ⟨hv, fun raw h => absurd h (by simp [Value.texts])⟩
  | text raw =>
      rw [Resolver.value]
      show Yields (if isDirectiveText raw then follow raw else Pure.pure (Value.text raw)) _
      split
      · exact hfollow raw
      · rename_i hplain
        refine pure ⟨hv, fun raw' h => ?_⟩
        rw [Value.texts, List.mem_singleton] at h
        exact h ▸ Bool.eq_false_iff.mpr hplain
  | list items ih =>
      rw [Resolver.value]
      refine (valueItems fun w hw => ih w hw (Value.wellFormed_list_iff.mp hv w hw)).bind ?_
      exact fun items' h => pure (Value.resolved_list_iff.mpr h)
  | map fields ih =>
      obtain ⟨hdistinct, hfields⟩ := Value.wellFormed_map_iff.mp hv
      rw [Resolver.value]
      refine (valueFields fun e he => ih e he (hfields e he)).bind fun fields' h => ?_
      refine pure (Value.resolved_map_iff.mpr ⟨?_, h.2⟩)
      rw [Entries.Distinct, h.1]
      exact hdistinct

end Yields

/-! ### Targets -/

variable {store : Store} {files : Files}

/-- **Following a directive gives resolved values, whatever the resolver remembers.** -/
theorem follow_yields (hsound : store.Sound) (depth : Nat) (raw : String) :
    Yields (follow files store depth raw) Value.Resolved := by
  induction depth generalizing raw with
  | zero => exact .of_reply (fun _ h => absurd h (by simp)) fun _ => rfl
  | succ depth ih =>
      have hinner : ∀ name v, v.WellFormed →
          Yields (named name (value (follow files store depth) v)) Value.Resolved :=
        fun name v hv => (Yields.value ih hv).named name
      have hpointer : Yields (liftM (Pointer.ofText raw) : Resolving Pointer) fun _ => True :=
        .of_reply (fun _ (_ : Pointer.ofText raw = .ok _) => trivial) fun r => by
          cases Pointer.ofText raw <;> rfl
      rw [follow]
      split
      · refine hpointer.bind fun pointer _ => ?_
        refine .cached (fun hr h => hr.references _ _ h) (fun hr h => ⟨h, hr.files⟩) ?_
        refine Yields.entered _ _ ((Yields.located raw fun v hv => ?_).bind (hinner _))
        obtain ⟨path, -, hn⟩ := (Store.get_eq_ok_iff hsound).mp hv
        exact hsound.wellFormed.of_node? hn
      · refine hpointer.bind fun pointer _ => ?_
        have hreader : Yields (get : Resolving Resolver) fun _ => True :=
          fun r hr => ⟨hr, fun _ _ => trivial⟩
        refine hreader.bind fun r _ => ?_
        refine .cached (fun hr h => hr.files _ _ h) (fun hr h => ⟨hr.references, h⟩) ?_
        refine Yields.entered _ _ ((Yields.located raw fun v hv => ?_).bind (hinner _))
        exact Reader.wellFormed_of_readAt hv

theorem resolve_yields (files : Files) (hsound : store.Sound) {v : Value} (hv : v.WellFormed)
    (context : String) : Yields (resolve files store v context) Value.Resolved :=
  (Yields.value (follow_yields hsound _) hv).named context

/-! ### Opening a document -/

/-- Resolving child after child leaves each of them resolved and the others as they were. -/
theorem resolveChildren_resolves (tokens : List String) {store store' : Store} {r r' : Resolver}
    (hsound : store.Sound) (hclean : r.Clean)
    (h : resolveChildren files (tokens.map fun token => [token]) store r = (.ok (), store', r')) :
    store'.Sound ∧ r'.Clean ∧ store'.content.head = store.content.head ∧
      (∀ token ∈ tokens, ∃ v, store'.content.child? token = some v ∧ v.Resolved) ∧
      ∀ token ∉ tokens, store'.content.child? token = store.content.child? token := by
  induction tokens generalizing store r with
  | nil =>
      obtain ⟨-, h⟩ := Prod.mk.inj h
      obtain ⟨rfl, rfl⟩ := Prod.mk.inj h
      exact ⟨hsound, hclean, rfl, fun _ h => absurd h List.not_mem_nil, fun _ _ => rfl⟩
  | cons token tokens ih =>
      obtain ⟨old, new, written, r'', hold, hrun, hupdate, h⟩ :=
        resolveChildren_cons_eq_ok hsound h
      have hn : store.content.node? [token] = some old := by simpa [Value.node?_cons] using hold
      obtain ⟨hafter, hgood⟩ := resolve_yields files hsound (hsound.wellFormed.of_node? hn) token
        r hclean
      rw [hrun] at hafter hgood
      have hnew : new.Resolved := hgood new rfl
      have hcontent := Store.content_update_plain hsound (List.cons_ne_nil token []) hn
        hnew.wellFormed hupdate
      rw [Value.put_cons_of_child? hold, Value.put_nil] at hcontent
      obtain ⟨hsound', hclean', hhead, hresolved, hothers⟩ :=
        ih (hsound.update hnew.wellFormed hupdate) hafter h
      refine ⟨hsound', hclean', ?_, List.forall_mem_cons.mpr ⟨?_, hresolved⟩, ?_⟩
      · rw [hhead, hcontent, Value.head_setChild hold]
      · by_cases hmem : token ∈ tokens
        · exact hresolved token hmem
        · refine ⟨new, ?_, hnew⟩
          rw [hothers token hmem, hcontent, Value.child?_setChild_self hold]
      · intro other hother
        obtain ⟨hne, hother⟩ := not_or.mp (mt List.mem_cons.mpr hother)
        rw [hothers other hother, hcontent, Value.child?_setChild_of_ne _ (Ne.symm hne)]

/-- A document is resolved if each of its children is.  An element of a list beyond what 64 bits
count has a path that leads to no child. -/
theorem resolved_of_childPaths {content content' : Value} (hcontainer : content.isContainer = true)
    (hwell : content'.WellFormed) (hhead : content'.head = content.head)
    (h : ∀ token, [token] ∈ childPaths content →
      ∃ v, content'.child? token = some v ∧ v.Resolved) : content'.Resolved := by
  cases content with
  | map fields =>
      obtain ⟨fields', rfl, hkeys⟩ := Value.map_of_head_eq hhead
      obtain ⟨hdistinct, -⟩ := Value.wellFormed_map_iff.mp hwell
      refine Value.resolved_map_iff.mpr ⟨hdistinct, fun e he => ?_⟩
      have hkey : e.1 ∈ Entries.keys fields := hkeys ▸ List.mem_map.mpr ⟨e, he, rfl⟩
      obtain ⟨f, hf, hkey⟩ := List.mem_map.mp hkey
      have hbelow : [e.1] ∈ childPaths (.map fields) :=
        List.mem_map.mpr ⟨f, hf, congrArg (fun key => [key]) hkey⟩
      obtain ⟨v, hv, hresolved⟩ := h e.1 hbelow
      obtain rfl := Option.some.inj ((hdistinct.find?_of_mem he).symm.trans hv)
      exact hresolved
  | list items =>
      obtain ⟨items', rfl, hlength, -⟩ := Value.list_of_head_eq hhead
      refine Value.resolved_list_iff.mpr fun v hv => ?_
      obtain ⟨i, hi, rfl⟩ := List.getElem_of_mem hv
      obtain ⟨w, hw, hresolved⟩ := h (toString i)
        (List.mem_map.mpr ⟨i, List.mem_range.mpr (hlength ▸ hi), rfl⟩)
      obtain ⟨j, hj, hw⟩ := Option.bind_eq_some_iff.mp hw
      obtain rfl := toString_inj (index?_eq_some_iff.mp hj).1
      rw [List.getElem?_eq_getElem hi] at hw
      exact Option.some.inj hw ▸ hresolved
  | _ => exact absurd hcontainer (by simp [Value.isContainer])

theorem resolveAll_resolves {store store' : Store} {r r' : Resolver} (hsound : store.Sound)
    (hclean : r.Clean) (hcontainer : store.content.isContainer = true)
    (h : resolveAll files store r = (.ok (), store', r')) :
    store'.Sound ∧ r'.Clean ∧ store'.content.Resolved := by
  obtain ⟨tokens, htokens⟩ := childPaths_eq store.content
  rw [resolveAll, htokens] at h
  obtain ⟨hsound', hclean', hhead, hresolved, -⟩ := resolveChildren_resolves tokens hsound hclean h
  refine ⟨hsound', hclean', resolved_of_childPaths hcontainer hsound'.wellFormed hhead ?_⟩
  intro token htoken
  rw [htokens] at htoken
  obtain ⟨token', hmem, heq⟩ := List.mem_map.mp htoken
  obtain rfl := List.singleton_inj.mp heq
  exact hresolved token' hmem

end Resolver

/-! ### Documents -/

namespace Document

/-- A change that is asked of a document, with the files there are by then. -/
inductive Change where
  | update (files : Files) (raw : String) (new : Value)
  | delete (raws : List String)
  | forget

/-- The document after a change, also after one that failed. -/
def change (d : Document) : Change → Document
  | .update files raw new => (d.update files raw new).2
  | .delete raws => d.delete raws
  | .forget => d.forget

/-- The document after some changes, the first one first. -/
def after (d : Document) (changes : List Change) : Document :=
  changes.foldl change d

/-- The document allows references, its store is sound, and neither the content nor what the
resolver remembers has a directive text in it. -/
structure Clean (d : Document) : Prop where
  sound : d.store.Sound
  resolved : d.content.Resolved
  resolver : ∃ r, d.resolver? = some r ∧ r.Clean

variable {d : Document}

theorem clean_of_ofOptions {files : Files} {options : Options}
    (hsource : ∀ content, options.source = .data content → content.WellFormed)
    (hreferences : options.references = true) (h : ofOptions files options = .ok d) : d.Clean := by
  have hload : ∀ content, options.source.load files = .ok content → content.WellFormed := by
    intro content hcontent
    cases hs : options.source with
    | data v =>
        rw [hs] at hcontent
        exact Except.ok.inj hcontent ▸ hsource v hs
    | file location =>
        rw [hs] at hcontent
        exact Reader.wellFormed_of_readAt hcontent
  simp only [ofOptions, hreferences, if_true] at h
  split at h
  · exact absurd h (by simp)
  rename_i content hcontent
  split at h
  · exact absurd h (by simp)
  rename_i hcontainer
  split at h
  · rename_i store r hresolve
    obtain rfl := Except.ok.inj h
    have hwell := hload content hcontent
    obtain ⟨hsound, hclean, hresolved⟩ := Resolver.resolveAll_resolves
      (Store.sound_wrap hwell options.backend) (Resolver.clean_new _ _)
      (by simpa using hcontainer) hresolve
    exact ⟨hsound, hresolved, r, rfl, hclean⟩
  · exact absurd h (by simp)

/-- **An update keeps a document clean, whether it fails or not.** -/
theorem Clean.update (h : d.Clean) (files : Files) (raw : String) {new : Value}
    (hnew : new.WellFormed) : (d.update files raw new).2.Clean := by
  obtain ⟨r, hr, hclean⟩ := h.resolver
  unfold Document.update
  split
  · exact h
  rename_i pointer _
  obtain ⟨hafter, hgood⟩ := Resolver.resolve_yields files h.sound hnew "<update>" r hclean
  rw [hr]
  rcases hrun : Resolver.resolve files d.store new "<update>" r with ⟨result, r'⟩
  rw [hrun] at hafter hgood
  cases result with
  | error fault => simpa [hrun] using ⟨h.sound, h.resolved, r', rfl, hafter⟩
  | ok v =>
      have hv : v.Resolved := hgood v rfl
      simp only [hrun]
      split
      · exact ⟨h.sound, h.resolved, r', rfl, hafter⟩
      · rename_i store hupdate
        have hcontent := Store.update_mapError h.sound pointer hv.wellFormed
        rw [hupdate] at hcontent
        have hsound := h.sound.update hv.wellFormed hupdate
        refine ⟨hsound, ⟨hsound.wellFormed, fun text htext => ?_⟩, r', rfl, hafter⟩
        rcases Value.texts_of_written hcontent.symm htext with htext | htext
        · exact hv.texts text htext
        · exact h.resolved.texts text htext

theorem Clean.deleteOne (h : d.Clean) (raw : String) : (d.deleteOne raw).Clean := by
  unfold Document.deleteOne
  split
  · exact h
  rename_i pointer _
  cases hdelete : d.store.delete? pointer with
  | none => exact ⟨h.sound, h.resolved, h.resolver⟩
  | some rest =>
      have hcontent := Store.delete?_map h.sound pointer
      rw [hdelete] at hcontent
      have hsound := h.sound.delete? hdelete
      refine ⟨hsound, ⟨hsound.wellFormed, fun text htext => ?_⟩, h.resolver⟩
      exact h.resolved.texts text (Value.texts_of_removed? hcontent.symm htext)

theorem Clean.delete (h : d.Clean) (raws : List String) : (d.delete raws).Clean := by
  induction raws generalizing d with
  | nil => exact h
  | cons raw raws ih => exact ih (h.deleteOne raw)

theorem Clean.forget (h : d.Clean) : d.forget.Clean := by
  obtain ⟨r, hr, -⟩ := h.resolver
  exact ⟨h.sound, h.resolved, r.forget, by rw [Document.forget, hr]; rfl, Resolver.clean_forget r⟩

/-- Every change keeps a document clean, and so do all of them together. -/
theorem Clean.after (h : d.Clean) {changes : List Change}
    (hchanges : ∀ files raw new, .update files raw new ∈ changes → new.WellFormed) :
    (d.after changes).Clean := by
  induction changes generalizing d with
  | nil => exact h
  | cons change changes ih =>
      refine ih ?_ fun files raw new hmem => hchanges files raw new (List.mem_cons_of_mem _ hmem)
      cases change with
      | update files raw new => exact h.update files raw (hchanges files raw new List.mem_cons_self)
      | delete raws => exact h.delete raws
      | forget => exact h.forget

/-- A text is no directive text exactly if it begins with neither of the marks. -/
theorem isDirectiveText_eq_false_iff {raw : String} :
    isDirectiveText raw = false ↔
      ¬ "!ref ".toList <+: raw.toList ∧ ¬ "!file ".toList <+: raw.toList := by
  have hmark : ∀ mark cs : List Char, (Text.afterMark? mark cs).isSome = true ↔ mark <+: cs := by
    intro mark cs
    rw [Option.isSome_iff_exists]
    simp only [Text.afterMark?_eq_some_iff]
    exact ⟨fun ⟨rest, h⟩ => ⟨rest, h.symm⟩, fun ⟨rest, h⟩ => ⟨rest, h.symm⟩⟩
  rw [isDirectiveText, Bool.or_eq_false_iff, ← Bool.not_eq_true, ← Bool.not_eq_true]
  exact and_congr (not_congr (hmark _ _)) (not_congr (hmark _ _))

/-- **A document that allows references holds no directive text, whatever has been done to it.**
It can be opened with any content or file, with a cache or without, behind either store, and each
update may find other files, and may fail. -/
theorem texts_after {files : Files} {options : Options} {changes : List Change}
    (hsource : ∀ content, options.source = .data content → content.WellFormed)
    (hreferences : options.references = true) (hopen : ofOptions files options = .ok d)
    (hchanges : ∀ files raw new, .update files raw new ∈ changes → new.WellFormed) :
    ∀ text ∈ (d.after changes).content.texts,
      ¬ "!ref ".toList <+: text.toList ∧ ¬ "!file ".toList <+: text.toList :=
  fun text htext => isDirectiveText_eq_false_iff.mp
    (((clean_of_ofOptions hsource hreferences hopen).after hchanges).resolved.texts text htext)

/-- A single file, which holds a text. -/
def oneFile (content : String) : Files where
  read location := if location = "a.txt" then .ok content else .error .missing
  readable := ["a.txt"]
  mem_readable h := by
    split at h
    · exact List.mem_singleton.mpr ‹_›
    · exact absurd h (by simp)

/-- How a document is opened that brings in a file, with a cache. -/
def fromFile : Options :=
  { source := .data (.map [("a", .text "!file a.txt"), ("c", .text "y")])
    references := true
    caching := true }

/-- The file is brought in by what the resolver remembers, a directive cannot be resolved, and the
file is brought in again after the resolver has forgotten it. -/
def fileChanges : List Change :=
  [.update (oneFile "!ref /nowhere") "/b" (.list [.text "!file a.txt"]),
    .update .none "/d" (.text "!ref /nowhere"), .delete ["/c"], .forget,
    .update (oneFile "x") "/e" (.text "!file a.txt")]

/-- The file holds a directive text at first, which is resolved each time. -/
theorem texts_after_fileChanges :
    (∀ content, fromFile.source = .data content → content.WellFormed) ∧
      fromFile.references = true ∧
      (∀ files raw new, .update files raw new ∈ fileChanges → new.WellFormed) ∧
      ∃ d, ofOptions (oneFile "!ref /c") fromFile = .ok d ∧
        (d.after fileChanges).content.same
          (.map [("a", .text "y"), ("b", .list [.text "y"]), ("e", .text "x")]) = true ∧
        ∀ text ∈ (d.after fileChanges).content.texts,
          ¬ "!ref ".toList <+: text.toList ∧ ¬ "!file ".toList <+: text.toList := by
  have hsource : ∀ content, fromFile.source = .data content → content.WellFormed := by
    intro content h
    obtain rfl := Source.data.inj h
    simp [Value.wellFormed_map_iff, Entries.Distinct, Entries.keys]
  have hchanges : ∀ files raw new, .update files raw new ∈ fileChanges → new.WellFormed := by
    intro files raw new h
    simp only [fileChanges, List.mem_cons, Change.update.injEq, reduceCtorEq, List.not_mem_nil,
      or_false, false_or] at h
    rcases h with ⟨-, -, rfl⟩ | ⟨-, -, rfl⟩ | ⟨-, -, rfl⟩ <;> simp
  have hrun : (ofOptions (oneFile "!ref /c") fromFile).toOption.any (fun d =>
      (d.after fileChanges).content.same
        (.map [("a", .text "y"), ("b", .list [.text "y"]), ("e", .text "x")])) = true := by
    decide +kernel
  cases hopen : ofOptions (oneFile "!ref /c") fromFile with
  | error fault => rw [hopen] at hrun; exact absurd hrun Bool.false_ne_true
  | ok d =>
      rw [hopen] at hrun
      exact ⟨hsource, rfl, hchanges, d, rfl, hrun, texts_after hsource rfl hopen hchanges⟩

end Document

end Docweave
