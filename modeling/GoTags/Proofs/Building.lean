import GoTags.Proofs.Decimal
import GoTags.Proofs.Indexing

/-!
# What a chunk is built from

**Input.** The declarations of a file and any source of lines, which may keep state from
one call to the next.

**Algorithm.** The lines of the declarations are asked for in order. Under either policy
the same replies come in, up to the first that is a fault.

**Results.**
* `build_skip`: the chunk that leaves out what cannot be had is made of the replies.
* `build_abort_cases`: the other policy gives the same chunk, or the first fault.
* `asked_skip`, `build_abort_of_failed`: what is asked for under each policy.
* `build_logged`: keeping a list of the calls changes nothing.
* `eq_ofReplies_of_build`: what was built is made of the replies, whatever the policy.
* `bytes_of_build`, `length_of_build`: the bytes of a chunk, and how many records it has.
* `build_by_policy`: what is built under each policy.
-/

namespace GoTags

section Asking

variable {σ : Type}

namespace LineSource

/-- Asks for the line of a declaration. If it cannot be had, note is taken. -/
def ask (source : LineSource σ) (d : Declaration) (s : σ) : Except Fault String × σ :=
  match source.resolve d.file d.line s with
  | (.ok text, s') => (.ok text, s')
  | (.error f, s') => (.error f, source.note (Chunk.skipEvent d f) s')

/-- Declarations with the replies to the calls for their lines, made one after the other. -/
def replies (source : LineSource σ) :
    List Declaration → σ → List (Declaration × Except Fault String)
  | [], _ => []
  | d :: ds, s => (d, (source.ask d s).1) :: source.replies ds (source.ask d s).2

/-- The call for the line of a declaration. -/
def request (d : Declaration) : LineCall :=
  .resolve d.file d.line

/-- A source of lines that also keeps a list of the calls made to it. -/
def logged (source : LineSource σ) : LineSource (σ × List LineCall) where
  resolve path line s :=
    ((source.resolve path line s.1).1, (source.resolve path line s.1).2,
      s.2 ++ [.resolve path line])
  forget s := (source.forget s.1, s.2 ++ [.clear])
  note e s := (source.note e s.1, s.2)

variable {source : LineSource σ} {d : Declaration} {s s' : σ}

theorem ask_of_ok {text : String} (h : source.resolve d.file d.line s = (.ok text, s')) :
    source.ask d s = (.ok text, s') := by
  rw [ask, h]

theorem ask_of_error {f : Fault} (h : source.resolve d.file d.line s = (.error f, s')) :
    source.ask d s = (.error f, source.note (Chunk.skipEvent d f) s') := by
  rw [ask, h]

theorem replies_cons_of_ok {text : String}
    (h : source.resolve d.file d.line s = (.ok text, s')) (ds : List Declaration) :
    source.replies (d :: ds) s = (d, .ok text) :: source.replies ds s' := by
  rw [replies, ask_of_ok h]

theorem replies_cons_of_error {f : Fault}
    (h : source.resolve d.file d.line s = (.error f, s')) (ds : List Declaration) :
    source.replies (d :: ds) s =
      (d, .error f) :: source.replies ds (source.note (Chunk.skipEvent d f) s') := by
  rw [replies, ask_of_error h]

/-- Every declaration is answered, in order. -/
theorem map_fst_replies (source : LineSource σ) (decls : List Declaration) (s : σ) :
    (source.replies decls s).map Prod.fst = decls := by
  induction decls generalizing s with
  | nil => rfl
  | cons d decls ih => rw [replies, List.map_cons, ih]

theorem resolve_logged {answer : Except Fault String}
    (h : source.resolve d.file d.line s = (answer, s')) (log : List LineCall) :
    source.logged.resolve d.file d.line (s, log) = (answer, s', log ++ [request d]) := by
  simp [logged, request, h]

end LineSource

end Asking

namespace Chunk

section Replies

/-- The chunk that some replies make: a record for each line that was had, and a
declaration left out for each that was not. -/
def ofReplies (layout : Layout) (fileName : String) :
    List (Declaration × Except Fault String) → Chunk
  | [] => empty fileName
  | (d, .ok text) :: rest => (ofReplies layout fileName rest).cons layout (.ofDeclaration d text)
  | (_, .error _) :: rest => (ofReplies layout fileName rest).drop

/-- Every line was had. -/
def Answered (replies : List (Declaration × Except Fault String)) : Prop :=
  ∀ x ∈ replies, ∃ text, x.2 = .ok text

/-- The record of a declaration whose line was had. -/
def recordOf : Declaration × Except Fault String → Option Record
  | (d, .ok text) => some ⟨text, d.name, d.line, d.byteOffset⟩
  | (_, .error _) => none

variable (layout : Layout) (fileName : String) (replies : List (Declaration × Except Fault String))

theorem fileName_ofReplies : (ofReplies layout fileName replies).fileName = fileName := by
  induction replies with
  | nil => rfl
  | cons x replies ih =>
      obtain ⟨d, answer⟩ := x
      cases answer with
      | ok text => exact ih
      | error f => exact ih

theorem records_ofReplies :
    (ofReplies layout fileName replies).records = replies.filterMap recordOf := by
  induction replies with
  | nil => rfl
  | cons x replies ih =>
      obtain ⟨d, answer⟩ := x
      cases answer with
      | ok text =>
          rw [ofReplies, cons, ih]
          rfl
      | error f => exact ih

theorem bytes_ofReplies :
    (ofReplies layout fileName replies).bytes =
      (ofReplies layout fileName replies).records.flatMap (Record.bytes layout) := by
  induction replies with
  | nil => rfl
  | cons x replies ih =>
      obtain ⟨d, answer⟩ := x
      cases answer with
      | ok text =>
          rw [ofReplies, cons, List.flatMap_cons, ih]
      | error f => exact ih

/-- No declaration is lost. -/
theorem length_ofReplies :
    (ofReplies layout fileName replies).records.length +
      (ofReplies layout fileName replies).dropped = replies.length := by
  induction replies with
  | nil => rfl
  | cons x replies ih =>
      obtain ⟨d, answer⟩ := x
      cases answer with
      | ok text =>
          rw [ofReplies, cons, List.length_cons, List.length_cons, ← ih]
          dsimp only
          omega
      | error f =>
          rw [ofReplies, drop, List.length_cons, ← ih]
          rfl

/-- Nothing is left out exactly if every line was had. -/
theorem dropped_ofReplies_eq_zero_iff :
    (ofReplies layout fileName replies).dropped = 0 ↔ Answered replies := by
  induction replies with
  | nil => simp [ofReplies, empty, Answered]
  | cons x replies ih =>
      obtain ⟨d, answer⟩ := x
      cases answer with
      | ok text => simpa [ofReplies, cons, Answered] using ih
      | error f => simp [ofReplies, drop, Answered]

/-- Where a line was not had, there is a first one. -/
theorem answered_or_failed :
    Answered replies ∨ ∃ before d f rest, replies = before ++ (d, .error f) :: rest ∧
      Answered before := by
  induction replies with
  | nil => exact Or.inl (by simp [Answered])
  | cons x replies ih =>
      obtain ⟨d, answer⟩ := x
      cases answer with
      | error f => exact Or.inr ⟨[], d, f, replies, rfl, by simp [Answered]⟩
      | ok text =>
          obtain hall | ⟨before, e, f, rest, rfl, hbefore⟩ := ih
          · exact Or.inl (List.forall_mem_cons.mpr ⟨⟨text, rfl⟩, hall⟩)
          · exact Or.inr ⟨(d, .ok text) :: before, e, f, rest, rfl,
              List.forall_mem_cons.mpr ⟨⟨text, rfl⟩, hbefore⟩⟩

end Replies

section Policies

variable {σ : Type} {source : LineSource σ} {config : IndexConfig} {fileName : String}
  {layout : Layout} {d : Declaration} {s s' : σ}

theorem build_cons_of_ok {text : String} (h : source.resolve d.file d.line s = (.ok text, s'))
    (ds : List Declaration) :
    build source config fileName (d :: ds) s =
      ((build source config fileName ds s').1.map (cons config.layout (.ofDeclaration d text)),
        (build source config fileName ds s').2) := by
  rw [build, h]

theorem build_abort_cons_of_error {f : Fault}
    (h : source.resolve d.file d.line s = (.error f, s')) (ds : List Declaration) :
    build source ⟨.abort, layout⟩ fileName (d :: ds) s = (.error f, s') := by
  rw [build, h]

theorem build_skip_cons_of_error {f : Fault}
    (h : source.resolve d.file d.line s = (.error f, s')) (ds : List Declaration) :
    build source ⟨.skip, layout⟩ fileName (d :: ds) s =
      ((build source ⟨.skip, layout⟩ fileName ds (source.note (skipEvent d f) s')).1.map drop,
        (build source ⟨.skip, layout⟩ fileName ds (source.note (skipEvent d f) s')).2) := by
  rw [build, h]

variable (source layout fileName)

/-- The chunk that leaves out what cannot be had is made of the replies. -/
theorem build_skip (decls : List Declaration) (s : σ) :
    (build source ⟨.skip, layout⟩ fileName decls s).1 =
      .ok (ofReplies layout fileName (source.replies decls s)) := by
  induction decls generalizing s with
  | nil => rfl
  | cons d decls ih =>
      cases hcall : source.resolve d.file d.line s with
      | mk answer s' =>
          cases answer with
          | ok text =>
              rw [build_cons_of_ok hcall, LineSource.replies_cons_of_ok hcall, ih]
              rfl
          | error f =>
              rw [build_skip_cons_of_error hcall, LineSource.replies_cons_of_error hcall, ih]
              rfl

/-- While every line is had, the policy does not matter. -/
theorem build_abort_of_answered {decls : List Declaration} {s : σ}
    (h : Answered (source.replies decls s)) :
    build source ⟨.abort, layout⟩ fileName decls s =
      build source ⟨.skip, layout⟩ fileName decls s := by
  induction decls generalizing s with
  | nil => rfl
  | cons d decls ih =>
      cases hcall : source.resolve d.file d.line s with
      | mk answer s' =>
          cases answer with
          | ok text =>
              rw [LineSource.replies_cons_of_ok hcall, Answered, List.forall_mem_cons] at h
              rw [build_cons_of_ok hcall, build_cons_of_ok hcall, ih h.2]
          | error f =>
              rw [LineSource.replies_cons_of_error hcall, Answered, List.forall_mem_cons] at h
              obtain ⟨⟨text, htext⟩, -⟩ := h
              cases htext

/-- The first line that cannot be had ends the building, and nothing is asked for after it. -/
theorem build_abort_of_failed {decls : List Declaration} {s : σ}
    {before rest : List (Declaration × Except Fault String)} {d : Declaration} {f : Fault}
    (h : source.replies decls s = before ++ (d, .error f) :: rest)
    (hbefore : Answered before) (log : List LineCall) :
    (build source ⟨.abort, layout⟩ fileName decls s).1 = .error f ∧
      (build source.logged ⟨.abort, layout⟩ fileName decls (s, log)).2.2 =
        log ++ (before.map Prod.fst ++ [d]).map LineSource.request := by
  induction decls generalizing s before log with
  | nil =>
      have hlength := congrArg List.length h
      rw [LineSource.replies, List.length_append, List.length_cons, List.length_nil] at hlength
      omega
  | cons e decls ih =>
      cases hcall : source.resolve e.file e.line s with
      | mk answer s' =>
          have hlogged := LineSource.resolve_logged hcall log
          cases answer with
          | error g =>
              -- nothing can stand before this call, so it is the one that fails
              rw [LineSource.replies_cons_of_error hcall] at h
              cases before with
              | nil =>
                  rw [List.nil_append, List.cons.injEq, Prod.mk.injEq, Except.error.injEq] at h
                  obtain ⟨⟨rfl, rfl⟩, -⟩ := h
                  rw [build_abort_cons_of_error hcall, build_abort_cons_of_error hlogged]
                  exact ⟨rfl, rfl⟩
              | cons x before =>
                  rw [List.cons_append, List.cons.injEq] at h
                  obtain ⟨text, htext⟩ := hbefore x List.mem_cons_self
                  rw [← h.1] at htext
                  cases htext
          | ok text =>
              rw [LineSource.replies_cons_of_ok hcall] at h
              cases before with
              | nil =>
                  rw [List.nil_append, List.cons.injEq, Prod.mk.injEq] at h
                  cases h.1.2
              | cons x before =>
                  rw [List.cons_append, List.cons.injEq] at h
                  obtain ⟨rfl, h⟩ := h
                  rw [Answered, List.forall_mem_cons] at hbefore
                  obtain ⟨hresult, hasked⟩ := ih h hbefore.2 (log ++ [LineSource.request e])
                  rw [build_cons_of_ok hcall, build_cons_of_ok hlogged, hresult, hasked]
                  exact ⟨rfl, by simp⟩

/-- Keeping a list of the calls does not show in the chunk. -/
theorem build_logged (config : IndexConfig) (decls : List Declaration) (s : σ)
    (log : List LineCall) :
    (build source.logged config fileName decls (s, log)).1 =
      (build source config fileName decls s).1 := by
  refine build_simulated (fun t s => t.1 = s) ?_ ?_ config fileName rfl
  · rintro d - t _ rfl
    exact ⟨rfl, rfl⟩
  · rintro e t _ rfl
    rfl

/-- What cannot be had does not keep the other lines from being asked for. -/
theorem asked_skip (decls : List Declaration) (s : σ) (log : List LineCall) :
    (build source.logged ⟨.skip, layout⟩ fileName decls (s, log)).2.2 =
      log ++ decls.map LineSource.request := by
  induction decls generalizing s log with
  | nil => exact (List.append_nil log).symm
  | cons d decls ih =>
      cases hcall : source.resolve d.file d.line s with
      | mk answer s' =>
          have hlogged := LineSource.resolve_logged hcall log
          cases answer with
          | ok text =>
              rw [build_cons_of_ok hlogged, ih, List.append_assoc, List.map_cons]
              rfl
          | error f =>
              have hnote : source.logged.note (skipEvent d f) (s', log ++ [LineSource.request d]) =
                  (source.note (skipEvent d f) s', log ++ [LineSource.request d]) := rfl
              rw [build_skip_cons_of_error hlogged, hnote, ih, List.append_assoc, List.map_cons]
              rfl

/-- Where building may stop, every line is had, or there is a first that is not. -/
theorem build_abort_cases (decls : List Declaration) (s : σ) :
    Answered (source.replies decls s) ∧
        (build source ⟨.abort, layout⟩ fileName decls s).1 =
          .ok (ofReplies layout fileName (source.replies decls s)) ∨
      ∃ before d f rest, source.replies decls s = before ++ (d, .error f) :: rest ∧
        Answered before ∧ (build source ⟨.abort, layout⟩ fileName decls s).1 = .error f := by
  obtain hall | ⟨before, d, f, rest, hreplies, hbefore⟩ :=
    answered_or_failed (source.replies decls s)
  · rw [build_abort_of_answered source fileName layout hall, build_skip]
    exact Or.inl ⟨hall, rfl⟩
  · exact Or.inr ⟨before, d, f, rest, hreplies, hbefore,
      (build_abort_of_failed source fileName layout hreplies hbefore []).1⟩

/-- Building stops exactly if some line cannot be had. -/
theorem build_abort_fails_iff (decls : List Declaration) (s : σ) :
    (∃ f, (build source ⟨.abort, layout⟩ fileName decls s).1 = .error f) ↔
      ∃ x ∈ source.replies decls s, ∃ f, x.2 = .error f := by
  obtain ⟨hall, hok⟩ | ⟨before, d, f, rest, hreplies, -, herror⟩ :=
    build_abort_cases source fileName layout decls s
  · refine iff_of_false (by simp [hok]) ?_
    rintro ⟨x, hx, f, hf⟩
    obtain ⟨text, htext⟩ := hall x hx
    cases hf.symm.trans htext
  · refine iff_of_true ⟨f, herror⟩ ⟨(d, .error f), ?_, f, rfl⟩
    rw [hreplies]
    exact List.mem_append_right _ List.mem_cons_self

/-- Building stops with the first fault. -/
theorem build_abort_eq_error_iff (decls : List Declaration) (s : σ) (f : Fault) :
    (build source ⟨.abort, layout⟩ fileName decls s).1 = .error f ↔
      ∃ before d rest, source.replies decls s = before ++ (d, .error f) :: rest ∧
        Answered before := by
  constructor
  · intro h
    obtain ⟨-, hok⟩ | ⟨before, d, g, rest, hreplies, hbefore, herror⟩ :=
      build_abort_cases source fileName layout decls s
    · cases hok.symm.trans h
    · cases herror.symm.trans h
      exact ⟨before, d, rest, hreplies, hbefore⟩
  · rintro ⟨before, d, rest, hreplies, hbefore⟩
    exact (build_abort_of_failed source fileName layout hreplies hbefore []).1

/-- A chunk is built under both policies exactly if nothing is left out. -/
theorem build_abort_eq_ok_iff (decls : List Declaration) (s : σ) (chunk : Chunk) :
    (build source ⟨.abort, layout⟩ fileName decls s).1 = .ok chunk ↔
      (build source ⟨.skip, layout⟩ fileName decls s).1 = .ok chunk ∧ chunk.dropped = 0 := by
  rw [build_skip, Except.ok.injEq]
  constructor
  · intro h
    obtain ⟨hall, hok⟩ | ⟨before, d, f, rest, -, -, herror⟩ :=
      build_abort_cases source fileName layout decls s
    · cases hok.symm.trans h
      exact ⟨rfl, (dropped_ofReplies_eq_zero_iff _ _ _).mpr hall⟩
    · cases herror.symm.trans h
  · rintro ⟨rfl, hdropped⟩
    have hall := (dropped_ofReplies_eq_zero_iff _ _ _).mp hdropped
    rw [build_abort_of_answered source fileName layout hall, build_skip]

/-- A chunk that was built is made of the replies, whatever the policy. -/
theorem eq_ofReplies_of_build {config : IndexConfig} {decls : List Declaration} {s : σ}
    {chunk : Chunk} (h : (build source config fileName decls s).1 = .ok chunk) :
    chunk = ofReplies config.layout fileName (source.replies decls s) := by
  obtain ⟨policy, layout⟩ := config
  have hskip : (build source ⟨.skip, layout⟩ fileName decls s).1 = .ok chunk := by
    cases policy with
    | skip => exact h
    | abort => exact ((build_abort_eq_ok_iff source fileName layout decls s chunk).mp h).1
  rw [build_skip, Except.ok.injEq] at hskip
  exact hskip.symm

/-- The bytes of a chunk are those of its records. -/
theorem bytes_of_build {config : IndexConfig} {decls : List Declaration} {s : σ} {chunk : Chunk}
    (h : (build source config fileName decls s).1 = .ok chunk) :
    chunk.bytes = chunk.records.flatMap (Record.bytes config.layout) := by
  rw [eq_ofReplies_of_build source fileName h]
  exact bytes_ofReplies config.layout fileName _

/-- Every declaration has a record in the chunk, or is counted as left out. -/
theorem length_of_build {config : IndexConfig} {decls : List Declaration} {s : σ} {chunk : Chunk}
    (h : (build source config fileName decls s).1 = .ok chunk) :
    chunk.records.length + chunk.dropped = decls.length := by
  have hlength := congrArg List.length (source.map_fst_replies decls s)
  rw [eq_ofReplies_of_build source fileName h, length_ofReplies, ← hlength, List.length_map]

/-- The number after the last comma of a header is the number of bytes. -/
theorem header_reads_back (c : Chunk) :
    ∃ number, Bytes.cutLast Bytes.comma c.header = some (Utf8.encode c.fileName, number) ∧
      Decimal.digits? number = some c.bytes.length := by
  refine ⟨Decimal.write c.bytes.length, ?_, Decimal.digits?_write _⟩
  rw [Bytes.cutLast_eq_some_iff]
  exact ⟨rfl, Decimal.not_mem_write _ (by decide)⟩

/-- **Nothing is lost or invented.** Leaving out what cannot be had, a chunk has one record for
each declaration whose line was had, in order, and says how many others there are; its
bytes are those of its records, and its header gives their number. Every line is asked
for once. Under the other policy building fails exactly if some line cannot be had, with
the first fault, and nothing is asked for after it; otherwise the chunk is the same. The
list of the calls changes nothing about what is built. -/
theorem build_by_policy {σ : Type} (source : LineSource σ) (layout : Layout) (fileName : String)
    (decls : List Declaration) (s : σ) :
    (∃ chunk, (build source ⟨.skip, layout⟩ fileName decls s).1 = .ok chunk ∧
      chunk.fileName = fileName ∧
      chunk.records = (source.replies decls s).filterMap recordOf ∧
      chunk.records.length + chunk.dropped = decls.length ∧
      chunk.bytes = chunk.records.flatMap (Record.bytes layout) ∧
      (∃ number, Bytes.cutLast Bytes.comma chunk.header = some (Utf8.encode fileName, number) ∧
        Decimal.digits? number = some chunk.bytes.length) ∧
      (build source.logged ⟨.skip, layout⟩ fileName decls (s, [])).2.2 =
        decls.map LineSource.request) ∧
    ((∃ f, (build source ⟨.abort, layout⟩ fileName decls s).1 = .error f) ↔
      ∃ x ∈ source.replies decls s, ∃ f, x.2 = .error f) ∧
    (∀ f, (build source ⟨.abort, layout⟩ fileName decls s).1 = .error f ↔
      ∃ before d rest, source.replies decls s = before ++ (d, .error f) :: rest ∧
        Answered before ∧
        (build source.logged ⟨.abort, layout⟩ fileName decls (s, [])).2.2 =
          (before.map Prod.fst ++ [d]).map LineSource.request) ∧
    (∀ chunk, (build source ⟨.abort, layout⟩ fileName decls s).1 = .ok chunk ↔
      (build source ⟨.skip, layout⟩ fileName decls s).1 = .ok chunk ∧ chunk.dropped = 0) ∧
    ∀ policy, (build source.logged ⟨policy, layout⟩ fileName decls (s, [])).1 =
      (build source ⟨policy, layout⟩ fileName decls s).1 := by
  refine ⟨?_, build_abort_fails_iff source fileName layout decls s, ?_,
    build_abort_eq_ok_iff source fileName layout decls s,
    fun policy => build_logged source fileName ⟨policy, layout⟩ decls s []⟩
  · refine ⟨_, build_skip source fileName layout decls s, fileName_ofReplies _ _ _,
      records_ofReplies _ _ _, ?_, bytes_ofReplies _ _ _, ?_, ?_⟩
    · have hlength := congrArg List.length (source.map_fst_replies decls s)
      rw [length_ofReplies, ← hlength, List.length_map]
    · have hheader := header_reads_back (ofReplies layout fileName (source.replies decls s))
      rwa [fileName_ofReplies] at hheader
    · exact asked_skip source fileName layout decls s []
  · intro f
    rw [build_abort_eq_error_iff]
    constructor
    · rintro ⟨before, d, rest, hreplies, hbefore⟩
      exact ⟨before, d, rest, hreplies, hbefore,
        (build_abort_of_failed source fileName layout hreplies hbefore []).2⟩
    · rintro ⟨before, d, rest, hreplies, hbefore, -⟩
      exact ⟨before, d, rest, hreplies, hbefore⟩

end Policies

end Chunk

end GoTags
