import Shipstern.Lib.Fallible
import Shipstern.Lib.Stateful

/-!
# Canonical codes

A writer turns a value into symbols or refuses it. A reader takes a value off the front of some
symbols or fails. A code is canonical on a domain when the reader recovers what is written for a
value of the domain, and takes nothing else for it: whatever it accepts is what is written, but
for symbols that it does not look at. Such codes follow each other without separators, and a
reader of one fails on input that ends too early.
-/

namespace CanonicalCode

variable {ε σ α β : Type}

abbrev Writer (ε σ α : Type) := α → Except ε (List σ)

abbrev Reader (ε σ α : Type) := StateT (List σ) (Except ε) α

/-- Write one thing after another. -/
def append (first second : Except ε (List σ)) : Except ε (List σ) := do
  let front ← first
  let back ← second
  pure (front ++ back)

/-- Write the values one after another. -/
def writeMany (write : Writer ε σ α) : Writer ε σ (List α)
  | [] => .ok []
  | a :: as => append (write a) (writeMany write as)

/-- Read the given number of values. -/
def readMany (read : Reader ε σ α) : Nat → Reader ε σ (List α)
  | 0 => pure []
  | n + 1 => do
      let a ← read
      let as ← readMany read n
      pure (a :: as)

/-- Nothing refused it. -/
def Written (written : Except ε (List σ)) : Prop := ∃ symbols, written = .ok symbols

/-- Whatever follows them, the symbols are read as the value. -/
def Reads (read : Reader ε σ α) (symbols : List σ) (a : α) : Prop :=
  ∀ rest, read (symbols ++ rest) = .ok (a, rest)

/-- The reader looks at every symbol. -/
abbrev exact : α → List σ → List σ := fun _ symbols => symbols

/-- The reader and the writer are inverse on the domain. Where the reader does not look at a
symbol, `blank` puts the one that the writer writes. -/
structure Canonical (domain : α → Prop) (write : Writer ε σ α) (read : Reader ε σ α)
    (blank : α → List σ → List σ) : Prop where
  recovers : ∀ {a symbols}, domain a → write a = .ok symbols → Reads read symbols a
  accepted : ∀ {input a rest}, read input = .ok (a, rest) →
    domain a ∧ ∃ front, input = front ++ rest ∧ write a = .ok (blank a front) ∧
      Reads read front a

/-- What a code promises to its users. The values that can be written are those that fit. -/
structure Faithful (fits : α → Prop) (write : Writer ε σ α) (read : Reader ε σ α)
    (blank : α → List σ → List σ) : Prop where
  recovers : ∀ a symbols, write a = .ok symbols → ∀ rest, read (symbols ++ rest) = .ok (a, rest)
  refuses_iff : ∀ a, (∃ e, write a = .error e) ↔ ¬ fits a
  canonical : ∀ input a rest, read input = .ok (a, rest) →
    ∃ front, input = front ++ rest ∧ write a = .ok (blank a front)
  truncated : ∀ input a rest, read input = .ok (a, rest) → ∀ short, short <+: input →
    short.length + rest.length < input.length → ∃ e, read short = .error e

/-! ## What is written -/

theorem append_eq_ok {first second : Except ε (List σ)} {symbols : List σ} :
    append first second = .ok symbols ↔
      ∃ front back, first = .ok front ∧ second = .ok back ∧ front ++ back = symbols := by
  rw [append, Fallible.bind_eq_ok]
  constructor
  · rintro ⟨front, hfront, h⟩
    obtain ⟨back, hback, hpure⟩ := Fallible.bind_eq_ok.mp h
    cases hpure
    exact ⟨front, back, hfront, hback, rfl⟩
  · rintro ⟨front, back, hfront, hback, rfl⟩
    exact ⟨front, hfront, Fallible.bind_eq_ok.mpr ⟨back, hback, rfl⟩⟩

theorem written_ok (symbols : List σ) : Written (.ok symbols : Except ε (List σ)) :=
  ⟨symbols, rfl⟩

theorem not_written_error (e : ε) : ¬ Written (.error e : Except ε (List σ)) := nofun

theorem written_append {first second : Except ε (List σ)} :
    Written (append first second) ↔ Written first ∧ Written second := by
  constructor
  · rintro ⟨symbols, h⟩
    obtain ⟨front, back, hfront, hback, -⟩ := append_eq_ok.mp h
    exact ⟨⟨front, hfront⟩, ⟨back, hback⟩⟩
  · rintro ⟨⟨front, hfront⟩, ⟨back, hback⟩⟩
    exact ⟨front ++ back, append_eq_ok.mpr ⟨front, back, hfront, hback, rfl⟩⟩

theorem written_writeMany {write : Writer ε σ α} {as : List α} :
    Written (writeMany write as) ↔ ∀ a ∈ as, Written (write a) := by
  induction as with
  | nil => simp only [writeMany, written_ok, List.not_mem_nil, false_imp_iff, implies_true]
  | cons a as ih => rw [writeMany, written_append, ih, List.forall_mem_cons]

theorem error_iff_not_written {written : Except ε (List σ)} :
    (∃ e, written = .error e) ↔ ¬ Written written := by
  cases written with
  | error e => simp [Written]
  | ok symbols => simp [Written]

/-! ## What is read -/

namespace Reads

theorem pure (a : α) : Reads (pure a : Reader ε σ α) [] a := fun _ => rfl

theorem bind {read : Reader ε σ α} {next : α → Reader ε σ β} {first second : List σ} {a : α}
    {b : β} (h : Reads read first a) (hnext : Reads (next a) second b) :
    Reads (read >>= next) (first ++ second) b := by
  intro rest
  rw [List.append_assoc]
  exact Stateful.bind_ok.mpr ⟨a, second ++ rest, h _, hnext rest⟩

theorem map {read : Reader ε σ α} {symbols : List σ} {a : α} (f : α → β)
    (h : Reads read symbols a) : Reads (f <$> read) symbols (f a) :=
  fun rest => Stateful.map_ok.mpr ⟨a, h rest, rfl⟩

end Reads

namespace Canonical

variable {domain : α → Prop} {write : Writer ε σ α} {read : Reader ε σ α}
variable {blank : α → List σ → List σ}

/-- What the reader accepts is what is written for a value of the domain. -/
theorem of_accepts_iff (h : ∀ input a rest, read input = .ok (a, rest) ↔
    domain a ∧ ∃ front, write a = .ok front ∧ input = front ++ rest) :
    Canonical domain write read exact where
  recovers ha hwrite rest := (h _ _ _).mpr ⟨ha, _, hwrite, rfl⟩
  accepted hread := by
    obtain ⟨ha, front, hwrite, hinput⟩ := (h _ _ _).mp hread
    exact ⟨ha, front, hinput, hwrite, fun tail => (h _ _ _).mpr ⟨ha, front, hwrite, rfl⟩⟩

/-- A reader that accepts takes its symbols and no more, so it had not accepted fewer. -/
theorem truncated (h : Canonical domain write read blank) {input rest short : List σ} {a : α}
    (haccept : read input = .ok (a, rest)) (hshort : short <+: input)
    (hlt : short.length + rest.length < input.length) : ∃ e, read short = .error e := by
  cases hread : read short with
  | error e => exact ⟨e, rfl⟩
  | ok accepted =>
      obtain ⟨b, left⟩ := accepted
      obtain ⟨-, front, rfl, -, hreads⟩ := h.accepted hread
      obtain ⟨tail, rfl⟩ := hshort
      have hagain := hreads (left ++ tail)
      rw [← List.append_assoc, haccept] at hagain
      cases hagain
      simp only [List.length_append] at hlt
      omega

/-- A code that is canonical on all values promises what its users want. -/
theorem faithful (h : Canonical (fun _ => True) write read blank) {fits : α → Prop}
    (hfits : ∀ a, Written (write a) ↔ fits a) : Faithful fits write read blank where
  recovers _ _ hwrite := h.recovers trivial hwrite
  refuses_iff a := by rw [error_iff_not_written, hfits]
  canonical _ _ _ hread := by
    obtain ⟨-, front, hinput, hwrite, -⟩ := h.accepted hread
    exact ⟨front, hinput, hwrite⟩
  truncated _ _ _ hread _ hshort hlt := h.truncated hread hshort hlt

theorem congr {domain' : α → Prop} (h : Canonical domain write read blank)
    (hdomain : ∀ a, domain a ↔ domain' a) : Canonical domain' write read blank where
  recovers ha := h.recovers ((hdomain _).mpr ha)
  accepted hread := by
    obtain ⟨ha, hfront⟩ := h.accepted hread
    exact ⟨(hdomain _).mp ha, hfront⟩

/-- A head tells how to read the rest. -/
theorem bind {headDomain : β → Prop} {writeHead : Writer ε σ β} {readHead : Reader ε σ β}
    {tag : α → β} {writeBody : Writer ε σ α} {readBody : β → Reader ε σ α}
    {blankBody : α → List σ → List σ} (head : Canonical headDomain writeHead readHead exact)
    (body : ∀ b, headDomain b →
      Canonical (fun a => domain a ∧ tag a = b) writeBody (readBody b) blankBody)
    (htag : ∀ a, domain a → headDomain (tag a))
    (hblank : ∀ a front back, writeHead (tag a) = .ok front →
      blank a (front ++ back) = front ++ blankBody a back) :
    Canonical domain (fun a => append (writeHead (tag a)) (writeBody a)) (readHead >>= readBody)
      blank where
  recovers := by
    intro a symbols ha hwrite
    obtain ⟨front, back, hfront, hback, rfl⟩ := append_eq_ok.mp hwrite
    have hdomain := htag a ha
    exact (head.recovers hdomain hfront).bind
      ((body (tag a) hdomain).recovers ⟨ha, rfl⟩ hback)
  accepted := by
    intro input a rest hread
    obtain ⟨b, mid, hhead, hbody⟩ := Stateful.bind_ok.mp hread
    obtain ⟨hb, front, rfl, hfront, hreadsFront⟩ := head.accepted hhead
    obtain ⟨⟨ha, rfl⟩, back, rfl, hback, hreadsBack⟩ := (body b hb).accepted hbody
    refine ⟨ha, front ++ back, (List.append_assoc _ _ _).symm, ?_, hreadsFront.bind hreadsBack⟩
    exact append_eq_ok.mpr ⟨front, _, hfront, hback, (hblank a front back hfront).symm⟩

/-- A writer that refuses what is outside of the domain. -/
theorem refuse {domain' : α → Prop} {write' : Writer ε σ α} (h : Canonical domain write read blank)
    (hdomain : ∀ a, domain a → domain' a)
    (hwrite : ∀ a symbols, domain' a →
      (write' a = .ok symbols ↔ domain a ∧ write a = .ok symbols)) :
    Canonical domain' write' read blank where
  recovers ha hsymbols := by
    obtain ⟨hin, hwritten⟩ := (hwrite _ _ ha).mp hsymbols
    exact h.recovers hin hwritten
  accepted hread := by
    obtain ⟨hin, front, hinput, hwritten, hreads⟩ := h.accepted hread
    have ha := hdomain _ hin
    exact ⟨ha, front, hinput, (hwrite _ _ ha).mpr ⟨hin, hwritten⟩, hreads⟩

/-- Read a value as another type, which takes only some. -/
theorem convert {domain' : β → Prop} {f : α → Except ε β} {g : β → α}
    (h : Canonical domain write read blank)
    (hf : ∀ a b, domain a → f a = .ok b → domain' b ∧ g b = a)
    (hg : ∀ b, domain' b → domain (g b) ∧ f (g b) = .ok b) :
    Canonical domain' (fun b => write (g b)) (read >>= fun a => liftM (f a))
      (fun b => blank (g b)) where
  recovers := by
    intro b symbols hb hwrite rest
    obtain ⟨hdomain, hconvert⟩ := hg b hb
    exact Stateful.bind_ok.mpr
      ⟨g b, rest, h.recovers hdomain hwrite rest, Stateful.lift_ok.mpr ⟨hconvert, rfl⟩⟩
  accepted := by
    intro input b rest hread
    obtain ⟨a, mid, ha, hlift⟩ := Stateful.bind_ok.mp hread
    obtain ⟨hconvert, rfl⟩ := Stateful.lift_ok.mp hlift
    obtain ⟨hdomain, front, hinput, hwrite, hreads⟩ := h.accepted ha
    obtain ⟨hb, rfl⟩ := hf a b hdomain hconvert
    refine ⟨hb, front, hinput, hwrite, fun tail => ?_⟩
    exact Stateful.bind_ok.mpr
      ⟨g b, tail, hreads tail, Stateful.lift_ok.mpr ⟨hconvert, rfl⟩⟩

/-- Several values follow each other. -/
theorem many (h : Canonical domain write read exact) (n : Nat) :
    Canonical (fun as => as.length = n ∧ ∀ a ∈ as, domain a) (writeMany write) (readMany read n)
      exact := by
  induction n with
  | zero =>
      refine ⟨?_, ?_⟩
      · rintro as symbols ⟨hlength, -⟩ hwrite
        obtain rfl := List.eq_nil_of_length_eq_zero hlength
        cases hwrite
        exact Reads.pure []
      · intro input as rest hread
        obtain ⟨rfl, rfl⟩ := Stateful.pure_ok.mp hread
        exact ⟨⟨rfl, nofun⟩, [], rfl, rfl, Reads.pure []⟩
  | succ n ih =>
      refine ⟨?_, ?_⟩
      · rintro as symbols ⟨hlength, hdomain⟩ hwrite
        cases as with
        | nil => cases hlength
        | cons a as =>
            obtain ⟨front, back, hfront, hback, rfl⟩ := append_eq_ok.mp hwrite
            obtain ⟨ha, has⟩ := List.forall_mem_cons.mp hdomain
            have htail := ih.recovers ⟨Nat.succ.inj hlength, has⟩ hback
            exact (h.recovers ha hfront).bind (htail.map (a :: ·))
      · intro input as rest hread
        obtain ⟨a, mid, ha, htail⟩ := Stateful.bind_ok.mp hread
        obtain ⟨as, mid', has, hpure⟩ := Stateful.bind_ok.mp htail
        obtain ⟨rfl, rfl⟩ := Stateful.pure_ok.mp hpure
        obtain ⟨hdomain, front, rfl, hfront, hreadsFront⟩ := h.accepted ha
        obtain ⟨⟨hlength, hall⟩, back, rfl, hback, hreadsBack⟩ := ih.accepted has
        refine ⟨⟨congrArg Nat.succ hlength, List.forall_mem_cons.mpr ⟨hdomain, hall⟩⟩,
          front ++ back, (List.append_assoc _ _ _).symm, ?_, ?_⟩
        · exact append_eq_ok.mpr ⟨front, back, hfront, hback, rfl⟩
        · exact hreadsFront.bind (hreadsBack.map (a :: ·))

end Canonical

end CanonicalCode
