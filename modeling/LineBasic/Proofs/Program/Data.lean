import LineBasic.Proofs.Program.Lines
import Mathlib.Data.List.Induction

/-!
# The order of the data

The fields of all `DATA` are read one after the other, over the stored lines in ascending order,
wherever the statement that reads them is. They are read from the start again after `RESTORE`, at
the start of a run, and after every edit: the fields that have been read may be gone, and others may
have come before them.

The fields need not be looked for each time. A cache collects them when the first of them is read,
and is dropped whenever they are to be read from the start. It never answers for other lines than
those that are stored.

## Main definitions

* `fields`, `fieldsOf` — the fields of one line, and of several lines
* `Request`, `Program.serve` — edits, restarts and reads of the data
* `asked` — how many fields have been read since the last restart
* `DataCache` — the fields, collected at the first read

## Main results

* `Program.mem_data_iff` — the data are the fields on all stored lines
* `Program.DataCache.next?_eq` — a cache gives the fields of the program that it belongs to
* `Program.data_read_in_order` — every field of the stored lines is read once, in order
-/

namespace LineBasic

/-- The fields of a line, from left to right, each with the number of the line. -/
def fields (n : Nat) (tokens : List Token) : List (Value × Nat) :=
  tokens.flatMap fun
    | .data values => values.map (·, n)
    | _ => []

/-- The fields of some lines, one line after the other. -/
def fieldsOf (lines : List (Nat × List Token)) : List (Value × Nat) :=
  lines.flatMap fun e => fields e.1 e.2

/-- What can be done with the data of a program. -/
inductive Request where
  /-- Stores a line, or deletes it when it has no tokens. -/
  | store (n : Nat) (tokens : List Token)
  /-- Starts again with the first field. -/
  | restore
  /-- Drops all that an earlier run left behind. -/
  | reset
  /-- Reads the next field. -/
  | next

namespace Request

/-- The edit that a request makes, if it makes one. -/
def edit? : Request → Option (Nat × List Token)
  | .store n tokens => some (n, tokens)
  | _ => none

/-- Whether the next field is read. All other requests start again with the first one. -/
def isNext : Request → Bool
  | .next => true
  | _ => false

theorem eq_next {r : Request} (h : r.isNext = true) : r = .next := by
  cases r with
  | next => rfl
  | _ => cases h

end Request

/-- The edits among some requests. -/
def editsOf (requests : List Request) : List (Nat × List Token) :=
  requests.filterMap Request.edit?

/-- How often a field has been asked for since the last edit or restart. -/
def asked (requests : List Request) : Nat :=
  (requests.reverse.takeWhile Request.isNext).length

theorem editsOf_append (requests more : List Request) :
    editsOf (requests ++ more) = editsOf requests ++ editsOf more :=
  List.filterMap_append

theorem asked_append_next (requests : List Request) :
    asked (requests ++ [.next]) = asked requests + 1 := by
  rw [asked, List.reverse_concat, List.takeWhile_cons_of_pos rfl, List.length_cons, asked]

theorem asked_append_of_not_next (requests : List Request) {r : Request} (h : r.isNext = false) :
    asked (requests ++ [r]) = 0 := by
  rw [asked, List.reverse_concat, List.takeWhile_cons_of_neg (by simp [h]), List.length_nil]

namespace Program

variable {p : Program}

/-- A program without lines. -/
def blank (maxCalls maxLoops : Nat) : Program where
  maxCalls
  maxLoops

/-- The program after a request. -/
def serve (p : Program) : Request → Program
  | .store n tokens => p.store n tokens
  | .restore => p.restore
  | .reset => p.reset
  | .next =>
    match p.nextDatum with
    | .ok _ p' => p'
    | .error _ p' => p'

/-- The program after some requests. -/
def serveAll (p : Program) (requests : List Request) : Program :=
  requests.foldl serve p

theorem serveAll_append (p : Program) (requests more : List Request) :
    p.serveAll (requests ++ more) = (p.serveAll requests).serveAll more :=
  List.foldl_append

theorem serveAll_concat (p : Program) (requests : List Request) (r : Request) :
    p.serveAll (requests ++ [r]) = (p.serveAll requests).serve r :=
  serveAll_append p requests [r]

/-- The data are the fields of the `DATA` on all stored lines. -/
theorem mem_data_iff {v : Value} {n : Nat} :
    (v, n) ∈ p.data ↔
      ∃ tokens values, p.lines[n]? = some tokens ∧ .data values ∈ tokens ∧ v ∈ values := by
  constructor
  · intro h
    obtain ⟨⟨k, tokens⟩, hline, hfield⟩ := List.mem_flatMap.mp h
    obtain ⟨t, ht, hv⟩ := List.mem_flatMap.mp hfield
    cases t with
    | data values =>
      obtain ⟨w, hw, heq⟩ := List.mem_map.mp hv
      cases heq
      exact ⟨tokens, values, Std.ExtTreeMap.mem_toList_iff_getElem?_eq_some.mp hline, ht, hw⟩
    | _ => cases hv
  · rintro ⟨tokens, values, hline, ht, hv⟩
    exact List.mem_flatMap.mpr ⟨(n, tokens),
      Std.ExtTreeMap.mem_toList_iff_getElem?_eq_some.mpr hline,
      List.mem_flatMap.mpr ⟨.data values, ht, List.mem_map.mpr ⟨v, hv, rfl⟩⟩⟩

/-! ### Reading the next field -/

theorem nextDatum_of_lt (h : p.dataIndex < p.data.length) :
    p.nextDatum = .ok p.data[p.dataIndex] { p with dataIndex := p.dataIndex + 1 } := by
  rw [nextDatum, List.getElem?_eq_getElem h]

theorem nextDatum_of_le (h : p.data.length ≤ p.dataIndex) :
    p.nextDatum = .error .outOfData p := by
  rw [nextDatum, List.getElem?_eq_none h]

theorem serve_next_of_lt (h : p.dataIndex < p.data.length) :
    p.serve .next = { p with dataIndex := p.dataIndex + 1 } := by
  rw [serve, nextDatum_of_lt h]

theorem serve_next_of_le (h : p.data.length ≤ p.dataIndex) : p.serve .next = p := by
  rw [serve, nextDatum_of_le h]

/-- Once the data are used up, reading on changes nothing. -/
theorem serveAll_next_of_le (h : p.data.length ≤ p.dataIndex) (count : Nat) :
    p.serveAll (List.replicate count .next) = p := by
  induction count with
  | zero => rfl
  | succ count ih =>
    rw [List.replicate_succ, serveAll, List.foldl_cons, serve_next_of_le h]
    exact ih

/-- Reading does not change the lines. -/
theorem lines_serve_next (p : Program) : (p.serve .next).lines = p.lines := by
  rcases Nat.lt_or_ge p.dataIndex p.data.length with h | h
  · rw [serve_next_of_lt h]
  · rw [serve_next_of_le h]

/-- All other requests start again with the first field. -/
theorem dataIndex_serve_of_not_next (p : Program) {r : Request} (h : r.isNext = false) :
    (p.serve r).dataIndex = 0 := by
  cases r with
  | next => cases h
  | _ => rfl

/-! ### Any number of requests -/

theorem lines_store_congr {q : Program} (h : p.lines = q.lines) (n : Nat) (tokens : List Token) :
    (p.store n tokens).lines = (q.store n tokens).lines := by
  rw [store, h]
  rfl

/-- Of the requests only the edits matter for the lines. -/
theorem lines_serveAll (p : Program) (requests : List Request) :
    (p.serveAll requests).lines = (p.storeAll (editsOf requests)).lines := by
  induction requests using List.reverseRecOn with
  | nil => rfl
  | append_singleton requests r ih =>
    rw [serveAll_concat, editsOf_append]
    cases r with
    | store n tokens =>
      rw [storeAll, List.foldl_append]
      exact lines_store_congr ih n tokens
    | next => rw [lines_serve_next, ih, show editsOf [.next] = [] from rfl, List.append_nil]
    | restore | reset =>
      exact ih.trans (congrArg (fun edits => (p.storeAll edits).lines) (List.append_nil _).symm)

/-- The place in the data is the number of fields that have been asked for, or the end. -/
theorem dataIndex_serveAll (h : p.dataIndex = 0) (requests : List Request) :
    (p.serveAll requests).dataIndex = min (asked requests) (p.serveAll requests).data.length := by
  induction requests using List.reverseRecOn with
  | nil =>
    change p.dataIndex = min 0 _
    rw [h, Nat.zero_min]
  | append_singleton requests r ih =>
    rw [serveAll_concat]
    cases hr : r.isNext with
    | false => rw [dataIndex_serve_of_not_next _ hr, asked_append_of_not_next _ hr, Nat.zero_min]
    | true =>
      obtain rfl := Request.eq_next hr
      have hdata : ((p.serveAll requests).serve .next).data = (p.serveAll requests).data :=
        congrArg (fun lines => data { p with lines }) (lines_serve_next _)
      rw [asked_append_next, hdata]
      rcases Nat.lt_or_ge (p.serveAll requests).dataIndex (p.serveAll requests).data.length
        with hlt | hge
      · rw [serve_next_of_lt hlt]
        change (p.serveAll requests).dataIndex + 1 = _
        omega
      · rw [serve_next_of_le hge]
        omega

/-! ### Collecting the fields once -/

/-- The fields of a program, if they have been collected, and the place of the next one. -/
structure DataCache where
  collected? : Option (List (Value × Nat)) := none
  index : Nat := 0

namespace DataCache

variable {c : DataCache}

/-- The cache with the fields collected. -/
def collect (c : DataCache) (p : Program) : DataCache :=
  match c.collected? with
  | some _ => c
  | none => { collected? := some p.data }

/-- The next field. -/
def next? (c : DataCache) (p : Program) : Option (Value × Nat) :=
  (c.collect p).collected?.bind fun data => data[(c.collect p).index]?

/-- The cache after a request to a program. -/
def serve (c : DataCache) (p : Program) : Request → DataCache
  | .next =>
    match c.next? p with
    | some _ => { c.collect p with index := (c.collect p).index + 1 }
    | none => c.collect p
  | _ => {}

/-- A program and its cache after some requests. -/
def serveAll (s : Program × DataCache) (requests : List Request) : Program × DataCache :=
  requests.foldl (fun s r => (s.1.serve r, s.2.serve s.1 r)) s

/-- A cache belongs to a program when it holds the fields of its lines, or nothing yet. -/
def Of (c : DataCache) (p : Program) : Prop :=
  c.collect p = { collected? := some p.data, index := p.dataIndex }

/-- A cache gives what the program gives that it belongs to. -/
theorem next?_eq (h : c.Of p) : c.next? p = p.data[p.dataIndex]? := by
  rw [next?, h]
  rfl

/-- Nothing has been collected when the fields are read from the start. -/
theorem of_start (h : p.dataIndex = 0) : Of {} p := by
  rw [Of, collect, h]

theorem Of.serve (h : c.Of p) (r : Request) : (c.serve p r).Of (p.serve r) := by
  cases hr : r.isNext with
  | false =>
    have hdropped : c.serve p r = {} := by
      cases r with
      | next => cases hr
      | _ => rfl
    rw [hdropped]
    exact of_start (dataIndex_serve_of_not_next p hr)
  | true =>
    obtain rfl := Request.eq_next hr
    rw [DataCache.serve, next?_eq h, h]
    rcases Nat.lt_or_ge p.dataIndex p.data.length with hlt | hge
    · rw [List.getElem?_eq_getElem hlt, serve_next_of_lt hlt]
      rfl
    · rw [List.getElem?_eq_none hge, serve_next_of_le hge]
      rfl

/-- The cache of a program belongs to it after any requests. -/
theorem Of.serveAll (h : c.Of p) (requests : List Request) :
    (DataCache.serveAll (p, c) requests).1 = p.serveAll requests ∧
      (DataCache.serveAll (p, c) requests).2.Of (p.serveAll requests) := by
  induction requests generalizing p c with
  | nil => exact ⟨rfl, h⟩
  | cons r requests ih => exact ih (h.serve r)

end DataCache

/-! ### Every field once -/

/-- After any requests to a new program, the next field is the one at the place that has been
reached by counting from the last edit or restart, among the fields of all lines in ascending order.
When there is none, the data are used up until the next edit or restart. -/
theorem data_read_in_order (maxCalls maxLoops : Nat) (requests : List Request) :
    let p := (blank maxCalls maxLoops).serveAll requests
    ∃ lines : List (Nat × List Token), Ascending lines ∧
      (∀ n tokens, (n, tokens) ∈ lines ↔
        latest? (editsOf requests) n = some tokens ∧ tokens ≠ []) ∧
      (∀ h : asked requests < (fieldsOf lines).length, p.nextDatum =
        .ok (fieldsOf lines)[asked requests] { p with dataIndex := asked requests + 1 }) ∧
      ((fieldsOf lines).length ≤ asked requests →
        ∀ count, (p.serveAll (List.replicate count .next)).nextDatum = .error .outOfData p) ∧
      (DataCache.serveAll (blank maxCalls maxLoops, {}) requests).2.next? p =
        (fieldsOf lines)[asked requests]? := by
  intro p
  -- the place in the data never gets beyond their end
  have hindex : p.dataIndex = min (asked requests) p.data.length := dataIndex_serveAll rfl requests
  refine ⟨p.lines.toList, p.ascending_toList, fun n tokens => ?_, fun h => ?_,
    fun h count => ?_, ?_⟩
  · rw [Std.ExtTreeMap.mem_toList_iff_getElem?_eq_some, lines_serveAll, getElem?_storeAll_eq_some]
    exact or_iff_left fun hnone => nomatch hnone.2
  · change asked requests < p.data.length at h
    rw [Nat.min_eq_left (Nat.le_of_lt h)] at hindex
    rw [nextDatum_of_lt (hindex ▸ h)]
    simp only [hindex]
    rfl
  · change p.data.length ≤ asked requests at h
    rw [Nat.min_eq_right h] at hindex
    have hend : p.data.length ≤ p.dataIndex := Nat.le_of_eq hindex.symm
    rw [serveAll_next_of_le hend, nextDatum_of_le hend]
  · rw [DataCache.next?_eq ((DataCache.of_start rfl).serveAll requests).2, hindex]
    change p.data[min (asked requests) p.data.length]? = p.data[asked requests]?
    rcases Nat.le_total (asked requests) p.data.length with h | h
    · rw [Nat.min_eq_left h]
    · rw [Nat.min_eq_right h, List.getElem?_eq_none (Nat.le_refl _), List.getElem?_eq_none h]

/-- A line that is stored in front of one that has been read: its field comes next, and then that of
the other line again. -/
theorem data_read_in_order_behind_edit :
    ∃ p', ((blank 1 1).serveAll [.store 20 [.data [.str (utf8 "B")]], .next,
        .store 10 [.data [.str (utf8 "A")]], .next]).nextDatum = .ok (.str (utf8 "B"), 20) p' := by
  obtain ⟨lines, hlines, hmem, hnext, -⟩ := data_read_in_order 1 1
    [.store 20 [.data [.str (utf8 "B")]], .next, .store 10 [.data [.str (utf8 "A")]], .next]
  obtain rfl : lines = [(10, [.data [.str (utf8 "A")]]), (20, [.data [.str (utf8 "B")]])] := by
    refine hlines.eq_of_mem_iff (by simp [Ascending]) fun ⟨n, tokens⟩ => (hmem n tokens).trans ?_
    simp only [editsOf, List.filterMap, Request.edit?, latest?_cons, latest?_nil]
    cases tokens with
    | nil => simp
    | cons t ts => by_cases h10 : n = 10 <;> by_cases h20 : n = 20 <;> simp [h10, h20, eq_comm]
  exact ⟨_, hnext (by decide)⟩

end Program

end LineBasic
