import CountedHeap.Proofs.Blur

/-! The growth of texts is not observed. Runs that perform the same operations on heaps of the same
limit, and are refused nothing, show the same, whatever the policies and first capacities. -/
namespace CountedHeap

namespace Blur

/-- Capacities and policies are left out; the rest is shown. -/
def storage : Blur where
  buffer b := { b with capacity := 0, growth := .exactFit }
  settings s := { s with growth := .exactFit, initialCapacity := 0 }
  freed _ := 0
  content_buffer _ := rfl
  buffer_buffer _ := rfl
  buffer_append b text := by
    obtain ⟨new, hnew, hcontent⟩ := b.append?_unbounded text
    obtain ⟨seen, hseen, hsame⟩ :=
      Text.Buffer.append?_unbounded { b with capacity := 0, growth := .exactFit } text
    rw [hnew, hseen]
    exact congrArg some (Text.Buffer.eq_of_content (hsame.trans hcontent.symm) rfl rfl)
  freed_capacity _ := rfl
  settings_settings _ := rfl
  liveLimit_settings _ := rfl
  buffer_empty _ := rfl

/-- All is shown but whether a first capacity of zero was wished for, or one of one. -/
def wish : Blur where
  buffer b := b
  settings s := { s with initialCapacity := max s.initialCapacity 1 }
  freed n := n
  content_buffer _ := rfl
  buffer_buffer _ := rfl
  buffer_append _ _ := rfl
  freed_capacity _ := rfl
  settings_settings s := by simp
  liveLimit_settings _ := rfl
  buffer_empty s := by simp [Text.Buffer.empty]

variable (β : Blur)

/-- Steps that perform the same operation on sessions that look alike, and are refused nothing,
show the same. -/
theorem report_step_congr {s t : Session} (hs : s.heap.Sound) (ht : t.heap.Sound)
    (hst : β.session s = β.session t) {first second : Allowance} {operation : Operation}
    (hfirst : (s.step first operation).refused = false)
    (hsecond : (t.step second operation).refused = false) :
    β.report (s.step first operation) = β.report (t.step second operation) := by
  rw [Session.step_of_granted hs hfirst, Session.step_of_granted ht hsecond, β.report_step s, hst,
    ← β.report_step t]

theorem map_report_run {a b : List (Allowance × Operation)} {s t : Session} (hs : s.heap.Sound)
    (ht : t.heap.Sound) (hst : β.session s = β.session t) (hops : a.map Prod.snd = b.map Prod.snd)
    (hfirst : ∀ r ∈ s.run a, r.refused = false) (hsecond : ∀ r ∈ t.run b, r.refused = false) :
    (s.run a).map β.report = (t.run b).map β.report := by
  induction a generalizing b s t with
  | nil =>
    obtain rfl := List.map_eq_nil_iff.mp hops.symm
    rfl
  | cons step a ih =>
    obtain ⟨other, b, rfl, hop, hrest⟩ := List.map_eq_cons_iff.mp hops.symm
    obtain ⟨first, operation⟩ := step
    obtain ⟨second, _⟩ := other
    obtain rfl := hop
    simp only [Session.run, List.mem_cons, forall_eq_or_imp] at hfirst hsecond
    have hreport := β.report_step_congr hs ht hst hfirst.1 hsecond.1
    have hnext : β.session _ = β.session _ := congrArg Report.session hreport
    simp only [Session.run, List.map_cons, hreport]
    have htail := ih (Session.sound_step hs _ _) (Session.sound_step ht _ _) hnext hrest.symm
      hfirst.2 hsecond.2
    rw [htail]

end Blur

/-- Runs of the same operations under settings of the same limit, in which nothing is refused, show
the same step by step but for capacities and policies; and all the same, capacities too, when the
policy is the same and the first capacities are zero and one. -/
theorem growth_law {first second : Settings} (hlimit : first.liveLimit = second.liveLimit)
    {a b : List (Allowance × Operation)} (hops : a.map Prod.snd = b.map Prod.snd)
    (hfirst : ∀ r ∈ (Session.ofSettings first).run a, r.refused = false)
    (hsecond : ∀ r ∈ (Session.ofSettings second).run b, r.refused = false) :
    ((Session.ofSettings first).run a).map Blur.storage.report =
        ((Session.ofSettings second).run b).map Blur.storage.report ∧
      (first.growth = second.growth → first.initialCapacity ≤ 1 → second.initialCapacity ≤ 1 →
        ((Session.ofSettings first).run a).map Blur.wish.report =
          ((Session.ofSettings second).run b).map Blur.wish.report) := by
  have alike : ∀ β : Blur, β.settings first = β.settings second →
      ((Session.ofSettings first).run a).map β.report =
        ((Session.ofSettings second).run b).map β.report := by
    intro β hsettings
    refine β.map_report_run (Heap.sound_ofSettings first) (Heap.sound_ofSettings second) ?_ hops
      hfirst hsecond
    simp [Blur.session, Blur.heap, Session.ofSettings, Heap.ofSettings, hsettings]
  constructor
  · exact alike Blur.storage (by simp [Blur.storage, hlimit])
  · intro hgrowth hzero hone
    exact alike Blur.wish (by
      simp [Blur.wish, hlimit, hgrowth, Nat.max_eq_right hzero, Nat.max_eq_right hone])

/-- Two texts, a line of input, and a creation too many. -/
def twoTexts : List Operation :=
  [.createText, .append ⟨0, 0⟩ ['a', 'é'], .supply [.octet 0x68, .octet 0x69, .octet newline],
    .readLine, .createText, .append ⟨1, 1⟩ ['b'], .appendFrom ⟨1, 1⟩ ⟨0, 0⟩, .createInteger 7,
    .release ⟨0, 0⟩, .createText, .buffer ⟨1, 1⟩, .read ⟨1, 1⟩]

theorem growth_of_twoTexts :
    let script := twoTexts.map (Allowance.ample, ·)
    let bare := (Session.ofSettings ⟨.exactFit, 0, some 2⟩).run script
    let single := (Session.ofSettings ⟨.exactFit, 1, some 2⟩).run script
    let roomy := (Session.ofSettings ⟨.amortized, 16, some 2⟩).run script
    bare.map Blur.storage.report = roomy.map Blur.storage.report ∧
      bare.map (·.session) ≠ roomy.map (·.session) ∧
      bare.map Blur.wish.report = single.map Blur.wish.report := by
  intro script bare single roomy
  have hbare : ∀ r ∈ bare, r.refused = false := by decide
  have hsingle : ∀ r ∈ single, r.refused = false := by decide
  have hroomy : ∀ r ∈ roomy, r.refused = false := by decide
  exact ⟨(growth_law (by rfl) (by rfl) hbare hroomy).1, by decide,
    (growth_law (by rfl) (by rfl) hbare hsingle).2 (by rfl) (by decide) (by decide)⟩

end CountedHeap
