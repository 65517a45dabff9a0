import Mathlib.Data.List.Nodup
import Petscii.Proofs.Source.Tokens

/-!
# Stages of a file

Behind each of its tokens a file is at one of twelve stages, and the stage says which tokens may come next.
A row of tokens that leads from between two items to between two items is the row of some items, and from
every stage a file can be finished. Tokens that may stand at one place begin differently, so that a text has
one row of tokens only.
-/

namespace Petscii.Source

/-- Between two items of a file, or behind a token inside a frame. -/
inductive Stage where
  | between
  | unsigned
  | char
  | name
  | leftBracket
  | rightBracket
  | equals
  | leftBrace
  | remark
  | number
  | comma
  | rightBrace
  deriving DecidableEq, Repr

/-- The tokens that may come next at a stage, and the stages behind them. -/
def Stage.exits : Stage → List (Token × Stage)
  | .between => [(.mark .slashes, .between), (.keyword .unsigned, .unsigned)]
  | .unsigned => [(.keyword .char, .char)]
  | .char => [(.name, .name)]
  | .name => [(.mark .leftBracket, .leftBracket)]
  | .leftBracket => [(.mark .rightBracket, .rightBracket)]
  | .rightBracket => [(.mark .equals, .equals)]
  | .equals => [(.mark .leftBrace, .leftBrace)]
  | .leftBrace => [(.mark .slashes, .remark), (.number, .number)]
  | .remark => [(.number, .number)]
  | .number => [(.mark .comma, .comma), (.mark .rightBrace, .rightBrace)]
  | .comma => [(.number, .number)]
  | .rightBrace => [(.mark .semicolon, .between)]

def Stage.accepts (q : Stage) : List Token :=
  q.exits.map Prod.fst

theorem Stage.mem_accepts {q : Stage} {t : Token} : t ∈ q.accepts ↔ ∃ m, (t, m) ∈ q.exits := by
  simp [Stage.accepts]

theorem Stage.nodup_accepts (q : Stage) : q.accepts.Nodup := by
  cases q <;> decide

theorem Stage.accepts_ne_nil (q : Stage) : q.accepts ≠ [] := by
  cases q <;> decide

/-- A row of tokens leads from one stage to another. -/
def Leads : Stage → List Token → Stage → Prop
  | q, [], q' => q = q'
  | q, t :: ts, q' => ∃ m, (t, m) ∈ q.exits ∧ Leads m ts q'

instance Leads.decidable : (q : Stage) → (ts : List Token) → (q' : Stage) → Decidable (Leads q ts q')
  | q, [], q' => inferInstanceAs (Decidable (q = q'))
  | q, t :: ts, q' =>
    have : ∀ m, Decidable (Leads m ts q') := fun m => Leads.decidable m ts q'
    decidable_of_iff (∃ e ∈ q.exits, e.1 = t ∧ Leads e.2 ts q')
      ⟨fun ⟨e, he, ht, h⟩ => ⟨e.2, ht ▸ he, h⟩, fun ⟨m, hm, h⟩ => ⟨(t, m), hm, rfl, h⟩⟩

theorem leads_append {q q' : Stage} {ts ts' : List Token} :
    Leads q (ts ++ ts') q' ↔ ∃ m, Leads q ts m ∧ Leads m ts' q' := by
  induction ts generalizing q with
  | nil => simp [Leads]
  | cons t ts ih =>
    simp only [List.cons_append, Leads, ih]
    constructor
    · rintro ⟨m, ht, n, hts, hts'⟩
      exact ⟨n, ⟨m, ht, hts⟩, hts'⟩
    · rintro ⟨n, ⟨m, ht, hts⟩, hts'⟩
      exact ⟨m, ht, n, hts, hts'⟩

/-! ### One row for each text -/

section Unique

variable {s u u' : Bytes}

theorem ReadsName.not_mark {name : Bytes} (h : ReadsName name s u) (m : Mark) : ¬ ReadsMark m s u' := by
  intro hmark
  obtain ⟨hspaced, htext, _⟩ := h
  have hhead := hmark.head
  rw [(spaced_iff (htext.solid u)).1 hspaced] at hhead
  obtain ⟨b, rest, rfl, hstart, _⟩ := htext
  have hb : some b = (utf8 m.text).head? := hhead
  cases m <;> (cases hb; exact absurd hstart (by decide))

/-- Where a mark stands there is no other token. -/
theorem Token.eq_of_mark {m : Mark} {t : Token} (h : (Token.mark m).Reads s u) (h' : t.Reads s u') :
    t = .mark m := by
  have hmark : ∀ {m : Mark} {u : Bytes}, (Token.mark m).Reads s u → ∃ v, ReadsMark m s v := by
    intro m u h
    obtain ⟨_, v, rfl, hs, _⟩ := Token.reads_iff.1 h
    exact ⟨v, (spaced_iff (solid_mark m v)).2 hs⟩
  obtain ⟨v, hv⟩ := hmark h
  cases t with
  | keyword k => exact absurd hv (ReadsKeyword.not_mark h' m v)
  | mark m' =>
    obtain ⟨v', hv'⟩ := hmark h'
    rw [hv'.unique hv]
  | name =>
    obtain ⟨name, hname⟩ := h'
    exact absurd hv (hname.not_mark m)
  | number =>
    obtain ⟨n, hnumber⟩ := h'
    exact absurd hv (hnumber.not_mark m v)

/-- Of two tokens that may come next at a stage, one is a mark. -/
theorem Stage.mark_of_accepts (q : Stage) :
    ∀ t ∈ q.accepts, ∀ t' ∈ q.accepts, t = t' ∨ (∃ m, t = .mark m) ∨ ∃ m, t' = .mark m := by
  cases q <;> simp [Stage.accepts, Stage.exits]

theorem Stage.token_unique {q : Stage} {t t' : Token} (ht : t ∈ q.accepts) (ht' : t' ∈ q.accepts)
    (h : t.Reads s u) (h' : t'.Reads s u') : t = t' := by
  rcases q.mark_of_accepts t ht t' ht' with rfl | ⟨m, rfl⟩ | ⟨m, rfl⟩
  · rfl
  · exact (Token.eq_of_mark h h').symm
  · exact Token.eq_of_mark h' h

theorem Stage.exit_unique {q m m' : Stage} {t : Token} (h : (t, m) ∈ q.exits) (h' : (t, m') ∈ q.exits) :
    m = m' := by
  have hnodup : (q.exits.map Prod.fst).Nodup := q.nodup_accepts
  exact congrArg Prod.snd (List.inj_on_of_nodup_map hnodup h h' rfl)

/-- Two rows of tokens at the beginning of one text are the same if only white space lies between their
ends. -/
theorem Leads.unique {q a b : Stage} {ts ts' : List Token} {w w' v : Bytes}
    (h : Leads q ts a) (h' : Leads q ts' b) (hreads : ReadsTokens ts s (w ++ v))
    (hreads' : ReadsTokens ts' s (w' ++ v)) (hw : ∀ x ∈ w, isSpace x = true)
    (hw' : ∀ x ∈ w', isSpace x = true) : a = b := by
  -- a further token would take a byte of the text behind the white space
  have hshort : ∀ {w w' : Bytes} {t : Token} {ts : List Token}, (∀ x ∈ w, isSpace x = true) →
      ¬ ReadsTokens (t :: ts) (w ++ v) (w' ++ v) := by
    intro w w' t ts hw hmore
    have hlt := hmore.length_lt (List.cons_ne_nil t ts)
    have hle := List.length_dropWhile_le isSpace v
    rw [List.dropWhile_append_of_pos hw, List.length_append] at hlt
    omega
  induction ts generalizing q s ts' with
  | nil =>
    cases ts' with
    | nil => exact (Eq.symm h).trans h'
    | cons t' ts' =>
      rw [show s = w ++ v from hreads] at hreads'
      exact absurd hreads' (hshort hw)
  | cons t ts ih =>
    cases ts' with
    | nil =>
      rw [show s = w' ++ v from hreads'] at hreads
      exact absurd hreads (hshort hw')
    | cons t' ts' =>
      obtain ⟨m, hexit, hrest⟩ := h
      obtain ⟨m', hexit', hrest'⟩ := h'
      obtain ⟨n, ht, hts⟩ := hreads
      obtain ⟨n', ht', hts'⟩ := hreads'
      have htoken := Stage.token_unique (Stage.mem_accepts.2 ⟨m, hexit⟩) (Stage.mem_accepts.2 ⟨m', hexit'⟩)
        ht ht'
      subst htoken
      have hstage := Stage.exit_unique hexit hexit'
      subst hstage
      have htext := ht.unique ht'
      subst htext
      exact ih hrest hrest' hts hts'

end Unique

/-! ### The tokens of items -/

def moreTokens (ns : List Nat) : List Token :=
  ns.flatMap fun _ => [.mark .comma, .number]

def headTokens : List Token :=
  [.keyword .unsigned, .keyword .char, .name, .mark .leftBracket, .mark .rightBracket, .mark .equals,
    .mark .leftBrace]

def remarkTokens : Option (List Nat) → List Token
  | none => []
  | some _ => [.mark .slashes]

def dataTokens : List Nat → List Token
  | [] => []
  | _ :: more => .number :: moreTokens more

def endTokens : List Token :=
  [.mark .rightBrace, .mark .semicolon]

def Item.tokens : Item → List Token
  | .comment _ => [.mark .slashes]
  | .frame p => headTokens ++ (remarkTokens p.remark ++ (dataTokens p.data ++ endTokens))

theorem leads_head : Leads .between headTokens .leftBrace := by
  decide

theorem leads_more (ns : List Nat) : Leads .number (moreTokens ns) .number := by
  induction ns with
  | nil => rfl
  | cons n ns ih => exact ⟨.comma, by decide, .number, by decide, ih⟩

theorem leads_end : Leads .number endTokens .between := by
  decide

theorem leads_item {item : Item} (h : ∀ p, item = .frame p → p.data ≠ []) :
    Leads .between item.tokens .between := by
  cases item with
  | comment numbers => exact ⟨.between, by decide, rfl⟩
  | frame p =>
    refine leads_append.2 ⟨.leftBrace, leads_head, ?_⟩
    cases hdata : p.data with
    | nil => exact absurd hdata (h p rfl)
    | cons n more =>
      have hmore : Leads .number (moreTokens more ++ endTokens) .between :=
        leads_append.2 ⟨.number, leads_more more, leads_end⟩
      cases p.remark with
      | none => exact ⟨.number, by decide, hmore⟩
      | some numbers => exact ⟨.remark, by decide, .number, by decide, hmore⟩

theorem ReadsFrame.data_ne_nil {p : Production} {s t : Bytes} (h : ReadsFrame p s t) : p.data ≠ [] := by
  obtain ⟨_, _, _, _, _, ⟨n, more, _, hdata, _⟩, _⟩ := h
  rw [hdata]
  exact List.cons_ne_nil n more

/-- A file leads back to where it began. -/
theorem ReadsItems.leads {its : List Item} {s : Bytes} (h : ReadsItems its s) :
    Leads .between (its.flatMap Item.tokens) .between := by
  induction h with
  | done => rfl
  | comment _ _ ih =>
    rw [List.flatMap_cons]
    exact leads_append.2 ⟨.between, leads_item (by simp), ih⟩
  | frame hreads _ ih =>
    rw [List.flatMap_cons]
    refine leads_append.2 ⟨.between, leads_item fun p hp => ?_, ih⟩
    cases hp
    exact hreads.data_ne_nil

section Reads

variable {s u : Bytes}

theorem ReadsHead.readsTokens {name : Bytes} (h : ReadsHead name s u) : ReadsTokens headTokens s u := by
  obtain ⟨s₁, s₂, s₃, s₄, s₅, s₆, h₁, h₂, h₃, h₄, h₅, h₆, h₇⟩ := h
  exact ⟨s₁, h₁, s₂, h₂, s₃, ⟨name, h₃⟩, s₄, h₄, s₅, h₅, s₆, h₆, u, h₇, rfl⟩

theorem ReadsMore.readsTokens {ns : List Nat} (h : ReadsMore ns s u) : ReadsTokens (moreTokens ns) s u := by
  induction h with
  | done => rfl
  | next hcomma hnumber _ ih => exact ⟨_, hcomma, _, ⟨_, hnumber⟩, ih⟩

theorem ReadsEnd.readsTokens (h : ReadsEnd s u) : ReadsTokens endTokens s u := by
  obtain ⟨s₁, h₁, h₂⟩ := h
  exact ⟨s₁, h₁, u, h₂, rfl⟩

theorem ReadsRemark.readsTokens {remark : Option (List Nat)} (h : ReadsRemark remark s u) :
    ReadsTokens (remarkTokens remark) s u := by
  cases h with
  | absent => rfl
  | present hcomment => exact ⟨u, ⟨_, hcomment⟩, rfl⟩

theorem ReadsData.readsTokens {ns : List Nat} (h : ReadsData ns s u) : ReadsTokens (dataTokens ns) s u := by
  obtain ⟨n, more, v, rfl, hnumber, hmore⟩ := h
  exact ⟨v, ⟨n, hnumber⟩, hmore.readsTokens⟩

theorem ReadsFrame.readsTokens {p : Production} (h : ReadsFrame p s u) :
    ReadsTokens (Item.frame p).tokens s u := by
  obtain ⟨s₁, s₂, s₃, hhead, hremark, hdata, hend⟩ := h
  refine readsTokens_append.2 ⟨s₁, hhead.readsTokens, readsTokens_append.2 ⟨s₂, hremark.readsTokens, ?_⟩⟩
  exact readsTokens_append.2 ⟨s₃, hdata.readsTokens, hend.readsTokens⟩

end Reads

/-! ### The items of a row of tokens -/

section Items

variable {ts : List Token} {s u : Bytes}

theorem Leads.single {q q' : Stage} {t : Token} (hexits : q.exits = [(t, q')]) (hinside : q ≠ .between)
    (h : Leads q ts .between) (hreads : ReadsTokens ts s u) :
    ∃ ts' m, ts = t :: ts' ∧ t.Reads s m ∧ Leads q' ts' .between ∧ ReadsTokens ts' m u := by
  cases ts with
  | nil => exact absurd h hinside
  | cons t' ts =>
    obtain ⟨m, hexit, hrest⟩ := h
    obtain ⟨n, ht, hts⟩ := hreads
    rw [hexits, List.mem_singleton, Prod.mk.injEq] at hexit
    obtain ⟨rfl, rfl⟩ := hexit
    exact ⟨ts, n, rfl, ht, hrest, hts⟩

theorem Leads.data (h : Leads .number ts .between) (hreads : ReadsTokens ts s u) :
    ∃ ns ts' m n, ts = moreTokens ns ++ (endTokens ++ ts') ∧ ReadsMore ns s m ∧ ReadsEnd m n ∧
      Leads .between ts' .between ∧ ReadsTokens ts' n u := by
  induction hlength : ts.length using Nat.strongRecOn generalizing ts s with
  | ind length ih =>
    cases ts with
    | nil => cases h
    | cons t ts =>
      obtain ⟨m, hexit, hrest⟩ := h
      obtain ⟨n, ht, hts⟩ := hreads
      rcases List.mem_cons.1 hexit with heq | hexit
      · cases heq
        obtain ⟨ts, v, rfl, ⟨k, hnumber⟩, hrest, hts⟩ := hrest.single rfl (by decide) hts
        obtain ⟨ns, ts', m', n', rfl, hmore, hend, hleads, hreads⟩ :=
          ih ts.length (by rw [← hlength, List.length_cons, List.length_cons]; omega) hrest hts rfl
        exact ⟨k :: ns, ts', m', n', rfl, ReadsMore.next ht hnumber hmore, hend, hleads, hreads⟩
      · cases List.mem_singleton.1 hexit
        obtain ⟨ts, v, rfl, hsemicolon, hleads, hreads⟩ := hrest.single rfl (by decide) hts
        exact ⟨[], ts, s, v, rfl, ReadsMore.done, ⟨n, ht, hsemicolon⟩, hleads, hreads⟩

theorem Leads.frame {v : Bytes} (hkeyword : ReadsKeyword .unsigned v s) (h : Leads .unsigned ts .between)
    (hreads : ReadsTokens ts s u) :
    ∃ p ts' n, .keyword .unsigned :: ts = (Item.frame p).tokens ++ ts' ∧ ReadsFrame p v n ∧
      Leads .between ts' .between ∧ ReadsTokens ts' n u := by
  obtain ⟨ts, s₂, rfl, h₂, h, hreads⟩ := h.single rfl (by decide) hreads
  obtain ⟨ts, s₃, rfl, ⟨name, h₃⟩, h, hreads⟩ := h.single rfl (by decide) hreads
  obtain ⟨ts, s₄, rfl, h₄, h, hreads⟩ := h.single rfl (by decide) hreads
  obtain ⟨ts, s₅, rfl, h₅, h, hreads⟩ := h.single rfl (by decide) hreads
  obtain ⟨ts, s₆, rfl, h₆, h, hreads⟩ := h.single rfl (by decide) hreads
  obtain ⟨ts, s₇, rfl, h₇, h, hreads⟩ := h.single rfl (by decide) hreads
  have hhead : ReadsHead name v s₇ := ⟨s, s₂, s₃, s₄, s₅, s₆, hkeyword, h₂, h₃, h₄, h₅, h₆, h₇⟩
  cases ts with
  | nil => cases h
  | cons t ts =>
    obtain ⟨m, hexit, hrest⟩ := h
    obtain ⟨n, ht, hts⟩ := hreads
    rcases List.mem_cons.1 hexit with heq | hexit
    · cases heq
      obtain ⟨numbers, hcomment⟩ := ht
      obtain ⟨ts, s₈, rfl, ⟨k, hnumber⟩, h, hreads⟩ := hrest.single rfl (by decide) hts
      obtain ⟨ns, ts', m', n', rfl, hmore, hend, hleads, hreads⟩ := h.data hreads
      have hframe : ReadsFrame ⟨name, some numbers, k :: ns⟩ v n' :=
        ⟨s₇, n, m', hhead, ReadsRemark.present hcomment, ⟨k, ns, s₈, rfl, hnumber, hmore⟩, hend⟩
      refine ⟨_, ts', n', ?_, hframe, hleads, hreads⟩
      simp [Item.tokens, headTokens, remarkTokens, dataTokens]
    · cases List.mem_singleton.1 hexit
      obtain ⟨k, hnumber⟩ := ht
      obtain ⟨ns, ts', m', n', rfl, hmore, hend, hleads, hreads⟩ := hrest.data hts
      have hframe : ReadsFrame ⟨name, none, k :: ns⟩ v n' :=
        ⟨s₇, s₇, m', hhead, ReadsRemark.absent, ⟨k, ns, n, rfl, hnumber, hmore⟩, hend⟩
      refine ⟨_, ts', n', ?_, hframe, hleads, hreads⟩
      simp [Item.tokens, headTokens, remarkTokens, dataTokens]

/-- A row of tokens that leads back to where it began is the row of some items. -/
theorem Leads.items (h : Leads .between ts .between) (hreads : ReadsTokens ts s u)
    (hu : ∀ b ∈ u, isSpace b = true) : ∃ its, ReadsItems its s ∧ its.flatMap Item.tokens = ts := by
  induction hlength : ts.length using Nat.strongRecOn generalizing ts s with
  | ind length ih =>
    cases ts with
    | nil =>
      rw [show s = u from hreads]
      exact ⟨[], ReadsItems.done hu, rfl⟩
    | cons t ts =>
      obtain ⟨m, hexit, hrest⟩ := h
      obtain ⟨n, ht, hts⟩ := hreads
      rcases List.mem_cons.1 hexit with heq | hexit
      · cases heq
        obtain ⟨numbers, hcomment⟩ := ht
        obtain ⟨its, hits, rfl⟩ := ih ts.length (by rw [← hlength, List.length_cons]; omega) hrest hts rfl
        exact ⟨.comment numbers :: its, ReadsItems.comment hcomment hits, rfl⟩
      · cases List.mem_singleton.1 hexit
        obtain ⟨p, ts', v, htokens, hframe, hleads, hreads⟩ := Leads.frame ht hrest hts
        have hlt : ts'.length < length := by
          have hlengths := congrArg List.length htokens
          rw [hlength, List.length_append] at hlengths
          have hpos : 0 < (Item.frame p).tokens.length := Nat.succ_pos _
          omega
        obtain ⟨its, hits, rfl⟩ := ih ts'.length hlt hleads hreads rfl
        exact ⟨.frame p :: its, ReadsItems.frame hframe hits, htokens.symm⟩

end Items

/-! ### Finishing a file -/

/-- A frame without its first keyword, with one number. -/
def closing : List Token :=
  [.keyword .char, .name, .mark .leftBracket, .mark .rightBracket, .mark .equals, .mark .leftBrace, .number,
    .mark .rightBrace, .mark .semicolon]

/-- How much of such a frame lies before a stage. -/
def Stage.done : Stage → Nat
  | .unsigned => 0
  | .char => 1
  | .name => 2
  | .leftBracket => 3
  | .rightBracket => 4
  | .equals => 5
  | .leftBrace => 6
  | .remark => 6
  | .comma => 6
  | .number => 7
  | .rightBrace => 8
  | .between => 9

/-- The rest of a frame, and one frame more. -/
def Stage.finish (q : Stage) : List Token :=
  closing.drop q.done ++ .keyword .unsigned :: closing

theorem Stage.leads_finish (q : Stage) : Leads q q.finish .between := by
  cases q <;> decide

theorem Stage.finish_ne_nil (q : Stage) : q.finish ≠ [] := by
  simp [Stage.finish]

theorem Stage.slashes_not_mem_finish (q : Stage) : Token.mark .slashes ∉ q.finish := by
  cases q <;> decide

/-- One spelling of each token. -/
def Token.sample : Token → Bytes
  | .keyword k => utf8 k.text
  | .mark m => utf8 m.text
  | .name => [97]
  | .number => [48]

theorem Token.spells_sample (t : Token) : t.Spells t.sample := by
  cases t with
  | keyword k => rfl
  | mark m => rfl
  | name => exact ⟨97, [], rfl, by decide, by simp⟩
  | number => exact ⟨List.cons_ne_nil _ _, List.forall_mem_singleton.2 (by decide)⟩

def linesOf (ts : List Token) : Bytes :=
  ts.flatMap fun t => newline :: t.sample

theorem off_linesOf (t : Token) (ts : List Token) : Off t.longer (linesOf ts) := by
  cases ts with
  | nil => rfl
  | cons t' ts => exact isSpace_longer (by decide) t

theorem readsTokens_linesOf {ts : List Token} (h : Token.mark .slashes ∉ ts) :
    ReadsTokens ts (linesOf ts) [] := by
  induction ts with
  | nil => rfl
  | cons t ts ih =>
    rw [List.mem_cons, not_or] at h
    obtain ⟨hne, hrest⟩ := h
    refine ⟨linesOf ts, ?_, ih hrest⟩
    have hspace : ∀ b ∈ [newline], isSpace b = true := List.forall_mem_singleton.2 (by decide)
    have hsolid : (t.sample ++ linesOf ts).dropWhile isSpace = t.sample ++ linesOf ts :=
      dropWhile_stretch (a := []) (by simp) (t.spells_sample.solid _)
    refine (Token.reads_space hspace).2 (Token.reads_iff.2 ⟨t.sample, linesOf ts, t.spells_sample, hsolid,
      off_linesOf t ts, ?_⟩)
    rw [Token.after_of_ne (Ne.symm hne)]

/-- A keyword of a frame stands in a frame. -/
theorem productions_ne_nil {its : List Item} (h : Token.keyword .unsigned ∈ its.flatMap Item.tokens) :
    productions its ≠ [] := by
  induction its with
  | nil => cases h
  | cons item its ih =>
    cases item with
    | comment numbers =>
      rw [List.flatMap_cons, List.mem_append] at h
      exact ih (h.resolve_left (by simp [Item.tokens]))
    | frame p => exact List.cons_ne_nil p _

/-- Behind tokens that were read, every token that may come next can be written in any spelling, and the
text can then be continued to a file. -/
theorem Leads.exists_file {ts : List Token} {q : Stage} {t : Token} {a x : Bytes} (h : Leads .between ts q)
    (ht : t ∈ q.accepts) (hx : t.Spells x)
    (hbefore : ∀ v, ∃ w, (∀ b ∈ w, isSpace b = true) ∧ ReadsTokens ts (a ++ v) (w ++ v)) :
    ∃ its rest more u, ReadsFile its (a ++ (x ++ rest)) ∧ its.flatMap Item.tokens = ts ++ t :: more ∧
      t.Reads (x ++ rest) u := by
  obtain ⟨m, hexit⟩ := Stage.mem_accepts.1 ht
  obtain ⟨w, hw, hts⟩ := hbefore (x ++ linesOf m.finish)
  have hnext : t.Reads (x ++ linesOf m.finish) (t.after (linesOf m.finish)) :=
    Token.reads_iff.2 ⟨x, _, hx, dropWhile_stretch (a := []) (by simp) (hx.solid _), off_linesOf t _, rfl⟩
  -- a comment takes the new line behind it, and the next token does without
  have hfinish : ReadsTokens m.finish (t.after (linesOf m.finish)) [] := by
    have hlines := readsTokens_linesOf m.slashes_not_mem_finish
    by_cases hslashes : t = .mark .slashes
    · subst hslashes
      obtain ⟨t', ts', hfinish⟩ := List.exists_cons_of_ne_nil m.finish_ne_nil
      rw [hfinish] at hlines ⊢
      have hspace : ∀ b ∈ [newline], isSpace b = true := List.forall_mem_singleton.2 (by decide)
      exact (readsTokens_space hspace (List.cons_ne_nil t' ts')).1 hlines
    · rwa [Token.after_of_ne hslashes]
  have hrow : ReadsTokens (ts ++ t :: m.finish) (a ++ (x ++ linesOf m.finish)) [] :=
    readsTokens_append.2 ⟨_, hts, _, (Token.reads_space hw).2 hnext, hfinish⟩
  have hleads : Leads .between (ts ++ t :: m.finish) .between :=
    leads_append.2 ⟨q, h, m, hexit, m.leads_finish⟩
  obtain ⟨its, hits, htokens⟩ := hleads.items hrow (by simp)
  refine ⟨its, _, m.finish, _, ⟨hits, productions_ne_nil ?_⟩, htokens, hnext⟩
  rw [htokens]
  simp [Stage.finish]

end Petscii.Source
