import EeEditor.Plugin.Update

/-!
# Sessions of a plugin

A session is a history of the document together with the cache that follows it: updates change the
document and are sent to the cache, and queries are asked of the cache with a peer that serves the
current document. In every reachable state the cache mirrors the document, nothing panics, and
every answer is that of the whole document.
-/

namespace EeEditor.Plugin

/-- The queries of the cache. -/
inductive Query where
  | getLine (lineNum : ℕ)
  | getRegion (start end_ : ℕ)
  | getDocument
  | offsetOfLine (lineNum : ℕ)
  | lineOfOffset (offset : ℕ)

/-- Text, or a position or line. -/
inductive Answer where
  | text (s : List UInt8)
  | number (n : ℕ)

namespace Query

/-- Ask the cache. -/
def ask (fuel : ℕ) (source : DataSource) (c : ChunkCache) :
    Query → Option (Except Error Answer × ChunkCache)
  | .getLine lineNum => (c.getLine fuel source lineNum).map (Prod.map (·.map .text) id)
  | .getRegion start end_ => (c.getRegion fuel source start end_).map (Prod.map (·.map .text) id)
  | .getDocument => (c.getDocument fuel source).map (Prod.map (·.map .text) id)
  | .offsetOfLine lineNum => (c.offsetOfLine source fuel lineNum).map (Prod.map (·.map .number) id)
  | .lineOfOffset offset => (c.lineOfOffset source offset).map (Prod.map (·.map .number) id)

/-- The answer computed on the whole document. -/
def answer (doc : List UInt8) : Query → Except Error Answer
  | .getLine lineNum =>
    if lineNum < lineCount doc then .ok (.text (lineText doc lineNum)) else .error .badRequest
  | .getRegion start end_ => .ok (.text ((doc.drop start).take (end_ - start)))
  | .getDocument => .ok (.text doc)
  | .offsetOfLine lineNum =>
    match lineStart doc lineNum with
    | some s => .ok (.number s)
    | none => .error .badRequest
  | .lineOfOffset offset =>
    if offset ≤ doc.length then .ok (.number (rank isNewline doc offset)) else .error .badRequest

/-- The interval of a region lies in the document, between character boundaries. -/
def InRange (doc : List UInt8) : Query → Prop
  | .getRegion start end_ => ChunkCache.IsRegion doc start end_
  | _ => True

end Query

theorem Returns.map_settled {β : Type} {ok : Prop} {x : Option (Except Error β × ChunkCache)}
    {source : DataSource} {doc : List UInt8} {rev : ℕ} {expected : Except Error β} (f : β → Answer)
    (h : Returns ok x (ChunkCache.Settled source doc rev expected)) :
    Returns ok (x.map (Prod.map (·.map f) id))
      (ChunkCache.Settled source doc rev (expected.map f)) := by
  cases x with
  | none => exact .none fun hok ↦ h.1 hok rfl
  | some b =>
    obtain ⟨hanswer, hmirror⟩ := h.2 b rfl
    refine .some ⟨?_, hmirror⟩
    rcases hanswer with heq | ⟨start, unit, err, herr, heq⟩
    · exact .inl (congrArg (·.map f) heq)
    · exact .inr ⟨start, unit, err, herr, congrArg (·.map f) heq⟩

/-- Every query is answered as on the whole document. -/
theorem Query.ask_returns {c : ChunkCache} {source : DataSource} {doc : List UInt8} {rev : ℕ}
    (hdoc : IsUtf8 doc) (hsource : source.Honest doc rev) (h : c.Mirrors doc rev) (fuel : ℕ)
    (q : Query) :
    Returns (q.InRange doc ∧ doc.length + 1 < fuel) (q.ask fuel source c)
      (ChunkCache.Settled source doc rev (q.answer doc)) := by
  cases q with
  | getLine lineNum =>
    have hline := (ChunkCache.getLine_returns hdoc hsource h fuel lineNum).map_settled Answer.text
    rw [apply_ite (Except.map Answer.text)] at hline
    exact hline.mono fun hok ↦ by omega
  | getRegion start end_ =>
    exact ((ChunkCache.getRegion_returns hsource h fuel start end_).map_settled Answer.text).mono
      fun hok ↦ ⟨hok.1, by omega⟩
  | getDocument =>
    exact ((ChunkCache.getDocument_returns hsource h fuel).map_settled Answer.text).mono
      fun hok ↦ by omega
  | offsetOfLine lineNum =>
    have hline := (ChunkCache.offsetOfLine_returns hsource h fuel lineNum).map_settled Answer.number
    have hanswer : (Query.offsetOfLine lineNum).answer doc
        = Except.map Answer.number (match lineStart doc lineNum with
          | some s => .ok s
          | none => .error .badRequest) := by
      rw [Query.answer]
      cases lineStart doc lineNum <;> rfl
    rw [hanswer]
    exact hline.mono fun hok ↦ by omega
  | lineOfOffset offset =>
    have hline := (ChunkCache.lineOfOffset_returns hsource h offset).map_settled Answer.number
    rw [apply_ite (Except.map Answer.number)] at hline
    exact hline.mono fun _ ↦ trivial

/-! ## Histories -/

/-- The current document and its cache. -/
structure Session where
  doc : List UInt8
  rev : ℕ
  cache : ChunkCache

/-- The states that updates and queries lead to, in any order. -/
inductive Session.Reachable : Session → Prop
  | new {doc : List UInt8} {rev : ℕ} (hdoc : IsUtf8 doc) :
    Reachable ⟨doc, rev, .new doc.length rev (lineCount doc)⟩
  | update {s : Session} {doc' : List UInt8} {rev' : ℕ} {delta : Option (Delta UInt8)}
    {c' : ChunkCache} (hs : Reachable s) (hdelta : IsUpdate s.doc doc' delta)
    (hc' : s.cache.update delta doc'.length (lineCount doc') rev' = some c') :
    Reachable ⟨doc', rev', c'⟩
  | query {s : Session} {source : DataSource} {fuel : ℕ} {q : Query} {r : Except Error Answer}
    {c' : ChunkCache} (hs : Reachable s) (hsource : source.Honest s.doc s.rev)
    (hc' : q.ask fuel source s.cache = some (r, c')) :
    Reachable ⟨s.doc, s.rev, c'⟩

namespace Session

variable {s : Session}

theorem Reachable.mirrors (h : s.Reachable) :
    IsUtf8 s.doc ∧ s.cache.Mirrors s.doc s.rev := by
  induction h with
  | new hdoc => exact ⟨hdoc, ChunkCache.mirrors_new _ _⟩
  | update hs hdelta hc' ih =>
    obtain ⟨c', hupdate, hmirror⟩ := ih.2.update ih.1 hdelta.2 _
    obtain rfl := Option.some.inj (hupdate.symm.trans hc')
    exact ⟨hdelta.1, hmirror⟩
  | query hs hsource hc' ih =>
    exact ⟨ih.1, ((Query.ask_returns ih.1 hsource ih.2 _ _).2 _ hc').2⟩

/-- The cache never answers from stale or misplaced text: it mirrors the current document, with the
starts of the lines in the chunk; an update does not panic; and a query returns, with the answer of
the whole document unless the peer reports an error. -/
theorem Reachable.cache_faithful (h : s.Reachable) :
    s.cache.Mirrors s.doc s.rev ∧
    (∀ n off, s.cache.lineOffsets[n]? = some off ↔ off ≤ s.cache.contents.length ∧
      select isNewline s.doc (s.cache.firstLine + (n + 1)) = some (s.cache.offset + off)) ∧
    (∀ delta doc' rev', IsUpdate s.doc doc' delta →
      s.cache.update delta doc'.length (lineCount doc') rev' ≠ none) ∧
    ∀ (source : DataSource) (fuel : ℕ) (q : Query), source.Honest s.doc s.rev →
      (q.InRange s.doc → s.doc.length + 1 < fuel → q.ask fuel source s.cache ≠ none) ∧
      ∀ r c', q.ask fuel source s.cache = some (r, c') →
        Answers source s.rev (q.answer s.doc) r := by
  obtain ⟨hdoc, hmirror⟩ := h.mirrors
  refine ⟨hmirror, fun n off ↦ ?_, fun delta doc' rev' hdelta ↦ ?_, fun source fuel q hsource ↦ ?_⟩
  · rw [hmirror.getElem?_lineOffsets]
    exact hmirror.isChunk.select_iff
  · obtain ⟨c', hupdate, -⟩ := hmirror.update hdoc hdelta.2 rev'
    rw [hupdate]
    exact Option.some_ne_none c'
  · have hask := Query.ask_returns hdoc hsource hmirror fuel q
    exact ⟨fun hq hfuel ↦ hask.1 ⟨hq, hfuel⟩, fun r c' hr ↦ (hask.2 _ hr).1⟩

end Session

/-! ## An honest peer -/

/-- A peer that sends all of the document from the requested position on. -/
def sendRest (doc : List UInt8) : DataSource := fun start unit _ _ ↦
  let pos := match unit with
    | .utf8 => if isCharBoundary doc start then some start else none
    | .line => lineStart doc start
  match pos with
  | none => .error .badRequest
  | some pos =>
    match lineStart doc (rank isNewline doc pos) with
    | none => .error .badRequest
    | some s => .ok ⟨doc.drop pos, pos, rank isNewline doc pos, pos - s⟩

theorem sendRest_honest {doc : List UInt8} (hdoc : IsUtf8 doc) (rev : ℕ) :
    (sendRest doc).Honest doc rev := by
  intro start unit size resp hresp
  unfold sendRest at hresp
  dsimp only at hresp
  split at hresp
  · cases hresp
  · next pos hpos =>
    split at hresp
    · cases hresp
    · next s hs =>
      obtain rfl := Except.ok.inj hresp
      have hbound : isCharBoundary doc pos = true ∧ pos ≤ doc.length := by
        cases unit with
        | utf8 =>
          dsimp only at hpos
          split at hpos
          · next hb =>
            obtain rfl := Option.some.inj hpos
            refine ⟨hb, ?_⟩
            rcases isCharBoundary_iff.mp hb with rfl | rfl | ⟨b, hget, -⟩
            · exact Nat.zero_le _
            · exact le_rfl
            · exact (List.getElem?_eq_some_iff.mp hget).1.le
          · cases hpos
        | line => exact ⟨isCharBoundary_lineStart hdoc hpos, lineStart_le_length hpos⟩
      have hle : s ≤ pos := by
        rw [lineStart_of_lt (rank_lt_lineCount pos)] at hs
        exact (select_le_iff hs).mpr le_rfl
      have hend : pos + (doc.drop pos).length = doc.length := by
        rw [List.length_drop]
        omega
      refine ⟨?_, ⟨hend.le, ?_, rfl, Nat.sub_le _ _, ?_, hbound.1, ?_⟩, fun hlt ↦ ?_⟩
      · cases unit with
        | utf8 =>
          dsimp only at hpos ⊢
          split at hpos
          · exact hpos.symm
          · cases hpos
        | line => exact hpos.symm
      · rw [List.take_length]
      · rw [hs]
        exact congrArg some (show s = pos - (pos - s) by omega)
      · rw [hend]
        exact isCharBoundary_length
      · have hlt : pos < doc.length := hlt
        exact List.ne_nil_of_length_pos (by rw [List.length_drop]; omega)

/-- After the second line of `a\nb\nc` is fetched and `\n` is inserted into it, the cache still
answers. -/
theorem Session.Reachable.cache_faithful_after_insert :
    ∃ c, ((Session.mk [97, 10, 98, 10, 10, 99] 2 c).Reachable ∧ c.offset = 2 ∧
        c.lineOffsets = [2, 3]) ∧
      ∀ r c', (Query.getLine 3).ask 10 (sendRest [97, 10, 98, 10, 10, 99]) c = some (r, c') →
        Answers (sendRest [97, 10, 98, 10, 10, 99]) 2 (.ok (.text [99])) r := by
  have hdoc : IsUtf8 [97, 10, 98, 10, 99] := ⟨"a\nb\nc".toList, by decide⟩
  have hdoc' : IsUtf8 [97, 10, 98, 10, 10, 99] := ⟨"a\nb\n\nc".toList, by decide⟩
  have hask : (Query.getLine 1).ask 10 (sendRest [97, 10, 98, 10, 99]) (.new 5 1 3)
      = some (.ok (.text [98, 10]), ⟨2, [98, 10, 99], 1, 0, [2], 5, 3, 1⟩) := rfl
  have hquery := Reachable.query (s := ⟨[97, 10, 98, 10, 99], 1, .new 5 1 3⟩)
    (.new hdoc) (sendRest_honest hdoc 1) hask
  have hdelta : IsUpdate [97, 10, 98, 10, 99] [97, 10, 98, 10, 10, 99]
      (some ⟨[.copy 0 4, .insert [10], .copy 4 5], 5⟩) := by
    refine ⟨hdoc', fun d hd ↦ ?_⟩
    obtain rfl := Option.some.inj hd
    refine ⟨fun el hel ↦ ?_, rfl⟩
    simp only [List.mem_cons, List.not_mem_nil, or_false] at hel
    rcases hel with rfl | rfl | rfl
    · exact ⟨rfl, rfl⟩
    · exact ⟨"\n".toList, by decide⟩
    · exact ⟨rfl, rfl⟩
  have hpatch : ChunkCache.update ⟨2, [98, 10, 99], 1, 0, [2], 5, 3, 1⟩
      (some ⟨[.copy 0 4, .insert [10], .copy 4 5], 5⟩) 6 4 2
        = some ⟨2, [98, 10, 10, 99], 1, 0, [2, 3], 6, 4, 2⟩ := by decide +kernel
  have hupdate := hquery.update hdelta hpatch
  refine ⟨_, ⟨hupdate, rfl, rfl⟩, fun r c' hr ↦ ?_⟩
  exact (hupdate.cache_faithful.2.2.2 _ 10 (.getLine 3) (sendRest_honest hdoc' 2)).2 r c' hr

end EeEditor.Plugin
