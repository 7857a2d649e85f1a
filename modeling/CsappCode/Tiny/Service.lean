import CsappCode.Tiny.Requests

/-!
# Which requests Tiny survives

Tiny serves one connection after the other, in one process. A connection that is not served to its
end is the last one: the process exits, is undone by a string that does not fit, or waits for a
client that has nothing more to say.

* `Handled` is the condition on a connection.
* `answer_fault_iff` and `doit_fault_iff` say that it is exact for one connection: behind the
  headers, and from its first line.
* `serve_all_iff` takes it to whole runs of the server.

## What the results rest on

**The condition is about the connection and the file system** alone, but for `PageFits`: how long an
error page gets depends on what the library makes of its `sprintf` calls, and the page fits if every
string on the way to it does. All results are for every library; the head of a file fits with each
of them (`staticHead_eq`).

**The clients** of `serve` connect one after the other, and the file system does not change in
between. A connection is answered as if it were the only one, since nothing is kept from one call of
`doit` to the next but what the arrays happen to hold; and that is part of the connection.

**The turns** of `read_requesthdrs` are bounded by `fuel`. With as many turns as a client sends
lines nothing is cut off: a client that has not sent the empty line by then never will. So the fault
`running` stands for a server that waits for good.
-/

namespace CsappCode.Tiny

open Csapp (lines maxline)
open ProxyLab (cstr crlf readline)
open Printf (bytes SelfSprintf)

/-! ### Pages -/

/-- The page of an error fits its array, at every step of its making. -/
def PageFits (lib : SelfSprintf) (cause errnum shortmsg longmsg : List UInt8) : Prop :=
  (errorBody lib cause errnum shortmsg longmsg).isSome

theorem clienterror_fault_iff {lib : SelfSprintf} {cause errnum shortmsg longmsg : List UInt8} :
    (clienterror lib cause errnum shortmsg longmsg).fault = none ↔
      PageFits lib cause errnum shortmsg longmsg := by
  rw [clienterror, PageFits]
  rcases errorBody lib cause errnum shortmsg longmsg with - | body
  · exact iff_of_false (by simp) (by simp)
  · exact iff_of_true rfl rfl

theorem serveStatic_fault_iff {lib : SelfSprintf} {filename : List UInt8} {file : File}
    {filesize : ℤ} (hint : IsInt filesize) :
    (serveStatic lib filename file filesize).fault = none ↔ file.opens = true ∧ 0 < filesize := by
  refine ⟨serveStatic_fault, fun ⟨hopens, hpos⟩ ↦ ?_⟩
  rw [serveStatic_eq (staticHead_eq lib filename hint) hopens hpos]

/-! ### The condition -/

/-- A file that is asked for under a URI is sent, executed or refused. -/
def FileHandled (lib : SelfSprintf) (t : Target) (file : File) : Prop :=
  if t.isStatic then
    if file.regular = true ∧ file.ownerReads = true then
      file.opens = true ∧ 0 < intOfSize file.content.length
    else PageFits lib t.filename (bytes "403") (bytes "Forbidden")
      (bytes "Tiny couldn't read the file")
  else file.regular = true ∧ file.ownerExecutes = true ∨
    PageFits lib t.filename (bytes "403") (bytes "Forbidden")
      (bytes "Tiny couldn't run the CGI program")

/-- A URI is answered: its name fits, and what it names can be dealt with. -/
structure UriHandled (lib : SelfSprintf) (fs : Files) (uri : List UInt8) : Prop where
  ne_nil : uri ≠ []
  fits : (target uri).filename.length < maxline
  missing : fs (target uri).filename = none → PageFits lib (target uri).filename (bytes "404")
    (bytes "Not found") (bytes "Tiny couldn't find this file")
  found : ∀ file, fs (target uri).filename = some file → FileHandled lib (target uri) file

/-- **A connection that Tiny survives**: the client says nothing, or asks with another method that
is short enough, or sends the empty line behind its headers and asks for what is handled. -/
def Handled (lib : SelfSprintf) (fs : Files) (x : Connection) : Prop :=
  ∀ first rest method uri, lines x.client = first :: rest →
    scanRequest x (cstr first) = (method, uri) →
    if isGet method then crlf ∈ headerStrings x rest ∧ UriHandled lib fs uri
    else PageFits lib method (bytes "501") (bytes "Not Implemented")
      (bytes "Tiny does not implement this method")

/-! ### One connection -/

/-- When there is a file, it decides. -/
theorem uriHandled_iff_of_found {lib : SelfSprintf} {fs : Files} {uri : List UInt8} {file : File}
    (hne : uri ≠ []) (hfits : (target uri).filename.length < maxline)
    (hfile : fs (target uri).filename = some file) :
    UriHandled lib fs uri ↔ FileHandled lib (target uri) file := by
  refine ⟨fun h ↦ h.found file hfile, fun h ↦ ⟨hne, hfits, ?_, ?_⟩⟩
  · exact fun hnone ↦ absurd (hfile.symm.trans hnone) (by simp)
  · intro file' hfile'
    rwa [← Option.some.inj (hfile.symm.trans hfile')]

/-- **What is behind the headers.** -/
theorem answer_fault_iff (lib : SelfSprintf) (fs : Files) {uri : List UInt8}
    (hlen : uri.length < maxline) : (answer lib fs uri).fault = none ↔ UriHandled lib fs uri := by
  have hcase := answer_case lib fs uri
  generalize answer lib fs uri = reply at hcase
  cases hcase with
  | fault huri =>
    refine iff_of_false (by simp) fun h ↦ ?_
    have hok := (parseUri_eq_ok_iff hlen).2 ⟨h.ne_nil, h.fits, rfl⟩
    exact absurd (huri.symm.trans hok) (by simp)
  | notFound huri hfile =>
    obtain ⟨hne, hfits, rfl⟩ := (parseUri_eq_ok_iff hlen).1 huri
    rw [clienterror_fault_iff]
    exact ⟨fun h ↦ ⟨hne, hfits, fun _ ↦ h, fun _ h' ↦ absurd (hfile.symm.trans h') (by simp)⟩,
      fun h ↦ h.missing hfile⟩
  | unreadable huri hfile hstatic hread =>
    obtain ⟨hne, hfits, rfl⟩ := (parseUri_eq_ok_iff hlen).1 huri
    rw [uriHandled_iff_of_found hne hfits hfile, clienterror_fault_iff, FileHandled,
      if_pos hstatic, if_neg]
    rcases hread with hread | hread <;> simp [hread]
  | served huri hfile hstatic hregular hreads =>
    obtain ⟨hne, hfits, rfl⟩ := (parseUri_eq_ok_iff hlen).1 huri
    rw [uriHandled_iff_of_found hne hfits hfile, serveStatic_fault_iff (isInt_intOfSize _),
      FileHandled, if_pos hstatic, if_pos ⟨hregular, hreads⟩]
  | unexecutable huri hfile hstatic hrun =>
    obtain ⟨hne, hfits, rfl⟩ := (parseUri_eq_ok_iff hlen).1 huri
    rw [uriHandled_iff_of_found hne hfits hfile, clienterror_fault_iff, FileHandled,
      if_neg (by simp [hstatic]), or_iff_right]
    rcases hrun with hrun | hrun <;> simp [hrun]
  | executed huri hfile hstatic hregular hexecutes =>
    obtain ⟨hne, hfits, rfl⟩ := (parseUri_eq_ok_iff hlen).1 huri
    rw [uriHandled_iff_of_found hne hfits hfile, FileHandled, if_neg (by simp [hstatic])]
    exact iff_of_true rfl (.inl ⟨hregular, hexecutes⟩)

/-- The URI that is parsed fits its array, whether it has been read or not. -/
theorem length_scanRequest_lt {x : Connection} {first method uri : List UInt8}
    {rest : List (List UInt8)} (hlines : lines x.client = first :: rest)
    (hscan : scanRequest x (cstr first) = (method, uri)) : uri.length < maxline := by
  have hfirst := (Csapp.isLine_of_mem_lines (hlines ▸ List.mem_cons_self)).length_lt
  have hcstr := ProxyLab.length_cstr_le first
  have hstack := x.length_uri
  rw [scanRequest] at hscan
  rcases hword : Scanf.readWord (cstr first) with - | ⟨word, left⟩
  · rw [hword] at hscan
    rwa [← (Prod.mk.inj hscan).2]
  · have hle := Scanf.readWord_length_add_le hword
    rw [hword] at hscan
    dsimp only at hscan
    rcases hword' : Scanf.readWord left with - | ⟨word', left'⟩
    · rw [hword'] at hscan
      rwa [← (Prod.mk.inj hscan).2]
    · have hle' := Scanf.readWord_length_add_le hword'
      rw [hword'] at hscan
      rw [← (Prod.mk.inj hscan).2]
      omega

/-- The buffer of `read_requesthdrs` holds at most as many strings as the client sends lines. -/
theorem length_headerStrings_le (x : Connection) (rest : List (List UInt8)) :
    (headerStrings x rest).length ≤ rest.length + 1 := by
  cases rest with
  | nil => exact le_rfl
  | cons line rest =>
    rw [headerStrings_cons, List.length_map]
    exact Nat.le_succ _

/-- **One connection is served to its end just if it is handled**, in as many turns as the client
sends lines. -/
theorem doit_fault_iff {lib : SelfSprintf} {fs : Files} {x : Connection} {fuel : ℕ}
    (hfuel : (lines x.client).length ≤ fuel) :
    (doit lib fs fuel x).fault = none ↔ Handled lib fs x := by
  have hcase := doit_case lib fs fuel x
  generalize doit lib fs fuel x = reply at hcase
  -- the request line and its words are what the case says they are
  have key : ∀ {first rest method uri}, lines x.client = first :: rest →
      scanRequest x (cstr first) = (method, uri) →
      (Handled lib fs x ↔ if isGet method then crlf ∈ headerStrings x rest ∧ UriHandled lib fs uri
        else PageFits lib method (bytes "501") (bytes "Not Implemented")
          (bytes "Tiny does not implement this method")) := by
    intro first rest method uri hlines hscan
    refine ⟨fun h ↦ h _ _ _ _ hlines hscan, fun h first' rest' method' uri' hlines' hscan' ↦ ?_⟩
    obtain ⟨rfl, rfl⟩ := List.cons.inj (hlines.symm.trans hlines')
    obtain ⟨rfl, rfl⟩ := Prod.mk.inj (hscan.symm.trans hscan')
    exact h
  cases hcase with
  | closed hlines =>
    refine iff_of_true rfl fun first rest _ _ hlines' ↦ ?_
    exact absurd (hlines.symm.trans hlines') (by simp)
  | otherMethod hlines hscan hget =>
    rw [key hlines hscan, if_neg (by simp [hget]), clienterror_fault_iff]
  | @running first rest method uri hlines hscan hget hnone =>
    rw [key hlines hscan, if_pos hget]
    refine iff_of_false (by simp) fun h ↦ ?_
    have hle := length_headerStrings_le x rest
    rw [hlines, List.length_cons] at hfuel
    have hsome : (readRequesthdrs fuel (readline x.headers rest).1
        (readline x.headers rest).2).isSome := by
      rw [isSome_readRequesthdrs_iff]
      show crlf ∈ (headerStrings x rest).take fuel
      rw [List.take_of_length_le (hle.trans hfuel)]
      exact h.1
    rw [hnone] at hsome
    exact absurd hsome (by simp)
  | @answered first rest left method uri hlines hscan hget hsome =>
    rw [key hlines hscan, if_pos hget, answer_fault_iff lib fs (length_scanRequest_lt hlines hscan)]
    refine (and_iff_right ?_).symm
    have hmem := (isSome_readRequesthdrs_iff fuel _ _).1 (Option.isSome_iff_exists.2 ⟨left, hsome⟩)
    exact List.mem_of_mem_take hmem

/-! ### Runs of the server -/

/-- `main`, when the clients connect one after the other: what they are sent. A connection that is
not served to its end is the last. -/
def serve (lib : SelfSprintf) (fs : Files) (fuel : ℕ) : List Connection → List Reply
  | [] => []
  | x :: xs =>
    let reply := doit lib fs fuel x
    if reply.fault = none then reply :: serve lib fs fuel xs else [reply]

/-- The first connection that is not handled is the last one, whatever comes behind it. -/
theorem serve_eq_of_not_handled {lib : SelfSprintf} {fs : Files}
    {served later : List Connection} {x : Connection} {fuel : ℕ}
    (hfuel : ∀ y ∈ served ++ [x], (lines y.client).length ≤ fuel)
    (hserved : ∀ y ∈ served, Handled lib fs y) (hx : ¬ Handled lib fs x) :
    serve lib fs fuel (served ++ x :: later) = (served ++ [x]).map (doit lib fs fuel) := by
  induction served with
  | nil =>
    have hfault := mt (doit_fault_iff (hfuel x (by simp))).1 hx
    rw [List.nil_append, serve]
    exact if_neg hfault
  | cons y served ih =>
    have hy := (doit_fault_iff (hfuel y (by simp))).2 (hserved y List.mem_cons_self)
    rw [List.cons_append, serve]
    rw [if_pos hy, ih (fun y' hy' ↦ hfuel y' (List.mem_cons_of_mem _ hy'))
      fun y' hy' ↦ hserved y' (List.mem_cons_of_mem _ hy')]
    rfl

/-- The first member of a list without a property. -/
theorem exists_first_not {α : Type} {P : α → Prop} {l : List α} (h : ¬ ∀ a ∈ l, P a) :
    ∃ pre a post, l = pre ++ a :: post ∧ (∀ b ∈ pre, P b) ∧ ¬ P a := by
  induction l with
  | nil => exact absurd (fun _ h ↦ absurd h List.not_mem_nil) h
  | cons a l ih =>
    by_cases ha : P a
    · obtain ⟨pre, b, post, rfl, hpre, hb⟩ := ih fun hl ↦ h (List.forall_mem_cons.2 ⟨ha, hl⟩)
      exact ⟨a :: pre, b, post, rfl, List.forall_mem_cons.2 ⟨ha, hpre⟩, hb⟩
    · exact ⟨[], a, l, rfl, fun _ h ↦ absurd h List.not_mem_nil, ha⟩

/-- Connections that are all handled are answered, each as if it were the only one. -/
theorem serve_eq_of_handled {lib : SelfSprintf} {fs : Files} {xs : List Connection} {fuel : ℕ}
    (hfuel : ∀ x ∈ xs, (lines x.client).length ≤ fuel) (hxs : ∀ x ∈ xs, Handled lib fs x) :
    serve lib fs fuel xs = xs.map (doit lib fs fuel) := by
  induction xs with
  | nil => rfl
  | cons x xs ih =>
    have hx := (doit_fault_iff (hfuel x List.mem_cons_self)).2 (hxs x List.mem_cons_self)
    rw [serve]
    rw [if_pos hx, ih (fun x' hx' ↦ hfuel x' (List.mem_cons_of_mem _ hx'))
      fun x' hx' ↦ hxs x' (List.mem_cons_of_mem _ hx'), List.map_cons]

/-- **Which runs go on**: the server goes on just if it handles each connection. It answers each as
if it were the only one, and the first that it does not handle is the last one. -/
theorem serve_all_iff (lib : SelfSprintf) (fs : Files) {xs : List Connection} {fuel : ℕ}
    (hfuel : ∀ x ∈ xs, (lines x.client).length ≤ fuel) :
    ((∀ reply ∈ serve lib fs fuel xs, reply.fault = none) ↔ ∀ x ∈ xs, Handled lib fs x) ∧
      ((∀ x ∈ xs, Handled lib fs x) → serve lib fs fuel xs = xs.map (doit lib fs fuel)) ∧
      ∀ served x later, xs = served ++ x :: later → (∀ y ∈ served, Handled lib fs y) →
        ¬ Handled lib fs x → serve lib fs fuel xs = (served ++ [x]).map (doit lib fs fuel) := by
  have hlast : ∀ served x later, xs = served ++ x :: later → (∀ y ∈ served, Handled lib fs y) →
      ¬ Handled lib fs x → serve lib fs fuel xs = (served ++ [x]).map (doit lib fs fuel) := by
    intro served x later heq hserved hx
    subst heq
    refine serve_eq_of_not_handled (fun y hy ↦ hfuel y ?_) hserved hx
    rw [List.append_cons]
    exact List.mem_append_left _ hy
  refine ⟨⟨fun h ↦ ?_, fun h reply hreply ↦ ?_⟩, serve_eq_of_handled hfuel, hlast⟩
  · by_contra hnot
    -- the first connection that is not handled
    obtain ⟨served, x, later, heq, hserved, hx⟩ := exists_first_not hnot
    refine hx ((doit_fault_iff (hfuel x (heq ▸ by simp))).1 (h _ ?_))
    rw [hlast served x later heq hserved hx]
    simp
  · rw [serve_eq_of_handled hfuel h] at hreply
    obtain ⟨x, hx, rfl⟩ := List.mem_map.1 hreply
    exact (doit_fault_iff (hfuel x hx)).2 (h x hx)

/-- A request for the home page, and a client that says nothing. -/
theorem serve_all_iff_two :
    ((∀ reply ∈ serve .keepLast homeFiles 3 [freshConnection getRoot.bytes, freshConnection []],
        reply.fault = none) ↔
      ∀ x ∈ [freshConnection getRoot.bytes, freshConnection []], Handled .keepLast homeFiles x) ∧
    ((∀ x ∈ [freshConnection getRoot.bytes, freshConnection []], Handled .keepLast homeFiles x) →
      serve .keepLast homeFiles 3 [freshConnection getRoot.bytes, freshConnection []] =
        [freshConnection getRoot.bytes, freshConnection []].map (doit .keepLast homeFiles 3)) ∧
    ∀ served x later,
      [freshConnection getRoot.bytes, freshConnection []] = served ++ x :: later →
      (∀ y ∈ served, Handled .keepLast homeFiles y) → ¬ Handled .keepLast homeFiles x →
      serve .keepLast homeFiles 3 [freshConnection getRoot.bytes, freshConnection []] =
        (served ++ [x]).map (doit .keepLast homeFiles 3) :=
  serve_all_iff .keepLast homeFiles (by decide +kernel)

end CsappCode.Tiny
