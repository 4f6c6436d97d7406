import TradingChartViewer.App.Drawing
import TradingChartViewer.App.Frames

/-!
# The loop of the window

`Application::run`: the events of the window are published to the controller and to the
render manager, then a frame is built and drawn, while other threads update the series.
A closed window has no more events. What `RenderSnapshotBuilder` makes of a frame is a
parameter, and so is `std::sort`.

* `Application.step`: the steps of the loop and of what goes on beside it;
* `Application.Draws`, `pictures_drawn`: every frame is drawn once, its layers in their
  order, in a view of the size that it was built for;
* `Application.Counts`, `frames_need_events`: no frame without an event of the window;
* `Application.Follows`, `loop_refines`: a run of the loop is one of `Frames`, and every event
  is published once.
-/

namespace TCV.App

open TCV.Domain Lib.Run Lib.Versioned

/-! ## The loop -/

/-- `sf::Event`: what the controller knows, or something else. -/
inductive WindowEvent
  | closed
  | input (a : InputCall) (ha : a.byUser = true)
  | other
  deriving DecidableEq, Repr

/-- What has been put on the screen: the frame with the size of the window it was built for, if
the window has an area, the view, and the layers from below. -/
structure Picture where
  frame : Option Frame
  canvas : Nat × Nat
  view : Nat × Nat
  layers : List Layer

/-- What `run` does next. -/
inductive LoopPc
  | poll (eventOccurred : Bool)
  | wait
  | enqueue
  | render (frame : Option Frame)
  | stopped

/-- `arrived` is all that the window system has had for the window, `published` what the event
bus got, and `failures` counts the waits that ended without an event. -/
structure Application where
  frames : Frames
  renderManager : RenderManager
  windowSize : Nat × Nat
  view : Nat × Nat
  isOpen : Bool := true
  queue : List WindowEvent := []
  pc : LoopPc := .poll false
  screen : List Picture := []
  arrived : List WindowEvent := []
  published : List WindowEvent := []
  failures : Nat := 0

inductive LoopEvent
  | arrive (e : WindowEvent)
  | update (version : Nat) (series : Option CandleSeries)
  | seriesUpdated
  | loop
  | waitFails
  | draw (repoCount : Nat) (latest : Nat → Option CandleSeries)

/-- What the window and its surroundings are like. -/
structure Surroundings where
  sort : RenderSort
  resourceProvider : Bool
  overlayFont : Bool
  build : Frame → Nat × Nat → FullSnapshot

section

variable [ViewportMaths] (env : Surroundings)

/-- The constructor, and the window as it is then. -/
def Application.start (seriesCache : Cell (Option CandleSeries)) (view : Viewport)
    (size windowView : Nat × Nat) : Application where
  frames := .start seriesCache view size
  renderManager := ({} : RenderManager).onResize size
  windowSize := size
  view := windowView

/-- The window hands out an event; it knows its size from it. -/
def Application.take (s : Application) (e : WindowEvent) (queue : List WindowEvent) : Application :=
  match e with
  | .input (.resized size) _ => { s with queue := queue, windowSize := size }
  | _ => { s with queue := queue }

/-- `eventBus_->publish`, with the controller's handlers. -/
def Application.publish (s : Application) (e : WindowEvent) : Application :=
  match e with
  | .input a _ => { s with
      frames := { s.frames with input := (s.frames.input.handle a).1 }
      renderManager := match a with
        | .resized size => s.renderManager.onResize size
        | _ => s.renderManager
      published := s.published ++ [e] }
  | _ => { s with published := s.published ++ [e] }

/-- The window hands out an event, and it is published. -/
def Application.receive (s : Application) (e : WindowEvent) (queue : List WindowEvent) :
    Application :=
  (s.take e queue).publish e

/-- A turn of the inner loop, or what comes after it. -/
def Application.poll (s : Application) (eventOccurred : Bool) : Application :=
  match s.isOpen, s.queue with
  | true, .closed :: queue => { s with queue := queue, isOpen := false, pc := .poll eventOccurred }
  | true, e :: queue => { s.receive e queue with pc := .poll true }
  | _, _ => { s with
      pc := if !eventOccurred && !s.renderManager.hasCommands then .wait else .enqueue }

/-- `waitEvent`, which does not return while there is no event. -/
def Application.wait (s : Application) : Option Application :=
  match s.isOpen, s.queue with
  | false, _ => some { s with pc := .enqueue }
  | true, [] => none
  | true, e :: queue =>
    let closing := { s with isOpen := decide (e ≠ WindowEvent.closed) }
    some { closing.receive e queue with pc := .enqueue }

/-- `renderManager_->render` and `window_->display`. -/
def Application.render (s : Application) (frame : Option Frame) : Application :=
  let (renderManager, view, layers) := s.renderManager.render env.sort s.windowSize s.view
  { s with
    renderManager := renderManager
    view := view
    screen := ⟨frame, s.windowSize, view, layers⟩ :: s.screen
    pc := if s.isOpen then .poll false else .stopped }

/-- The commands of the frame that has been built. -/
def Application.addLayers (s : Application) (frame : Frame) : Application :=
  { s with
    renderManager := (frameLayers env.resourceProvider env.overlayFont
      (env.build frame s.windowSize)).foldl RenderManager.addRenderCommand s.renderManager
    pc := .render (some frame) }

def Application.step (s : Application) : LoopEvent → Option Application
  | .arrive e => some { s with queue := s.queue ++ [e], arrived := s.arrived ++ [e] }
  | .update version series => (s.frames.step (.update version series)).map fun frames =>
      { s with frames := frames }
  | .seriesUpdated => (s.frames.step .seriesUpdated).map fun frames => { s with frames := frames }
  | .loop =>
    match s.pc with
    | .poll eventOccurred => some (s.poll eventOccurred)
    | .wait => s.wait
    | .enqueue =>
      if s.windowSize.1 = 0 || s.windowSize.2 = 0 then some { s with pc := .render none }
      else (s.frames.step .frame).map fun frames => { s with frames := frames }
    | .render frame => some (s.render env frame)
    | .stopped => none
  | .waitFails =>
    match s.pc with
    | .wait => some { s with pc := .enqueue, failures := s.failures + 1 }
    | _ => none
  | .draw repoCount latest =>
    match s.pc with
    | .enqueue => do
      let frames ← s.frames.step (.draw repoCount latest)
      let frame ← frames.frames.head?
      some ({ s with frames := frames }.addLayers env frame)
    | _ => none

end

/-! ## Steps of the frames -/

section Frames

variable [ViewportMaths] {f g : Frames}

/-- A frame is added when it is drawn. -/
theorem step_draw_frames {repoCount : Nat} {latest : Nat → Option CandleSeries}
    (h : f.step (.draw repoCount latest) = some g) :
    g.pc = .version ∧ ∃ frame, g.frames = frame :: f.frames := by
  dsimp only [Frames.step] at h
  split at h
  · cases h
    have hkept (c : Bool) (series : Option CandleSeries) (version : Nat) :
        (if c then f.setSeries series version else f).frames = f.frames := by
      cases c <;> rfl
    exact ⟨rfl, _, congrArg (List.cons _) (hkept _ _ _)⟩
  · cases h

theorem step_frame_frames (h : f.step .frame = some g) : g.frames = f.frames := by
  dsimp only [Frames.step] at h
  split at h <;> cases h
  · rfl
  · rfl
  · unfold Frames.select Frames.setSeries
    dsimp only
    split
    · rfl
    split <;> rfl

theorem step_other_frames {e : FrameEvent}
    (he : (∃ version series, e = .update version series) ∨ e = .seriesUpdated)
    (h : f.step e = some g) : g.frames = f.frames ∧ g.pc = f.pc := by
  obtain ⟨version, series, rfl⟩ | rfl := he
  · dsimp only [Frames.step] at h
    split at h <;> cases h
    exact ⟨rfl, rfl⟩
  · cases h
    exact ⟨rfl, rfl⟩

end Frames

/-! ## What is drawn -/

/-- A frame is drawn from below, one unit of its canvas to a pixel of the window; there is
none of a window without an area. -/
def Picture.Right (env : Surroundings) (p : Picture) : Prop :=
  match p.frame with
  | none => (p.canvas.1 = 0 ∨ p.canvas.2 = 0) ∧ p.layers = []
  | some frame => p.canvas.1 ≠ 0 ∧ p.canvas.2 ≠ 0 ∧ p.view = p.canvas ∧
      p.layers = drawOrder env.resourceProvider env.overlayFont (env.build frame p.canvas)

/-- The frame that has been built and not yet drawn. -/
def Application.pending (s : Application) : Option Frame :=
  match s.pc with
  | .render frame => frame
  | _ => none

/-- The queue of commands holds the layers of the frame that is to be drawn. -/
def Application.Queued (env : Surroundings) (s : Application) : Prop :=
  match s.pc with
  | .render none => (s.windowSize.1 = 0 ∨ s.windowSize.2 = 0) ∧ s.renderManager.commands = []
  | .render (some frame) => (s.windowSize.1 ≠ 0 ∧ s.windowSize.2 ≠ 0) ∧
      s.renderManager.commands =
        frameLayers env.resourceProvider env.overlayFont (env.build frame s.windowSize)
  | _ => s.renderManager.commands = []

structure Application.Draws (env : Surroundings) (s : Application) : Prop where
  canvas : s.windowSize.1 ≠ 0 → s.windowSize.2 ≠ 0 → s.renderManager.canvasSize = s.windowSize
  view : s.renderManager.canvasSize.1 ≠ 0 → s.renderManager.canvasSize.2 ≠ 0 →
    s.renderManager.viewDirty = true ∨ s.view = s.renderManager.canvasSize
  queued : s.Queued env
  screen : ∀ p ∈ s.screen, p.Right env
  frames : s.frames.frames = s.pending.toList ++ s.screen.filterMap Picture.frame
  /-- A frame is under way only where it is built. -/
  resting : s.frames.pc = .version ∨
    s.pc = .enqueue ∧ s.windowSize.1 ≠ 0 ∧ s.windowSize.2 ≠ 0

section Manager

theorem onResize_canvas (m : RenderManager) (size : Nat × Nat) (h₁ : size.1 ≠ 0) (h₂ : size.2 ≠ 0) :
    (m.onResize size).canvasSize = size := by
  unfold RenderManager.onResize
  rw [if_neg (by simp [h₁, h₂])]
  split
  · rename_i h
    exact h.symm
  · rfl

/-- A new size makes the view a new one. -/
theorem onResize_view {m : RenderManager} {view : Nat × Nat} (size : Nat × Nat)
    (h : m.canvasSize.1 ≠ 0 → m.canvasSize.2 ≠ 0 → m.viewDirty = true ∨ view = m.canvasSize) :
    (m.onResize size).canvasSize.1 ≠ 0 → (m.onResize size).canvasSize.2 ≠ 0 →
      (m.onResize size).viewDirty = true ∨ view = (m.onResize size).canvasSize := by
  unfold RenderManager.onResize
  split
  · exact h
  split
  · exact h
  · exact fun _ _ => .inl rfl

theorem onResize_commands (m : RenderManager) (size : Nat × Nat) :
    (m.onResize size).commands = m.commands := by
  unfold RenderManager.onResize
  split
  · rfl
  split <;> rfl

/-- What is drawn is drawn in a view of the canvas. -/
theorem render_view (sort : RenderSort) (m : RenderManager) (windowSize view : Nat × Nat)
    (h₁ : m.canvasSize.1 ≠ 0) (h₂ : m.canvasSize.2 ≠ 0)
    (h : m.viewDirty = true ∨ view = m.canvasSize) :
    (m.render sort windowSize view).2.1 = m.canvasSize := by
  have hsize : (if m.canvasSize.1 = 0 || m.canvasSize.2 = 0 then windowSize else m.canvasSize) =
      m.canvasSize := if_neg (by simp [h₁, h₂])
  unfold RenderManager.render
  dsimp only
  rw [hsize]
  split
  · rfl
  · rename_i hclean
    refine h.resolve_left fun hdirty => hclean ?_
    rw [hdirty]
    simp [Nat.pos_of_ne_zero h₁, Nat.pos_of_ne_zero h₂]

theorem foldl_addRenderCommand (m : RenderManager) (l : List (Int × Layer)) :
    l.foldl RenderManager.addRenderCommand m = { m with commands := m.commands ++ l } := by
  induction l generalizing m with
  | nil => simp
  | cons command l ih => rw [List.foldl_cons, ih, RenderManager.addRenderCommand]; simp

end Manager

section Draws

variable [ViewportMaths] {env : Surroundings} {s t : Application}

/-- The controller after an event. -/
def WindowEvent.handled (e : WindowEvent) (input : ChartInput) : ChartInput :=
  match e with
  | .input a _ => (input.handle a).1
  | _ => input

/-- What a published event changes. -/
theorem receive_eq (s : Application) (e : WindowEvent) (queue : List WindowEvent) :
    ∃ size renderManager, s.receive e queue = { s with
        queue := queue
        frames := { s.frames with input := e.handled s.frames.input }
        windowSize := size
        renderManager := renderManager
        published := s.published ++ [e] } ∧
      (size = s.windowSize ∧ renderManager = s.renderManager ∨
        renderManager = s.renderManager.onResize size) := by
  cases e with
  | closed => exact ⟨s.windowSize, s.renderManager, rfl, .inl ⟨rfl, rfl⟩⟩
  | other => exact ⟨s.windowSize, s.renderManager, rfl, .inl ⟨rfl, rfl⟩⟩
  | input a ha =>
    cases a with
    | resized size => exact ⟨size, _, rfl, .inr rfl⟩
    | _ => exact ⟨s.windowSize, s.renderManager, rfl, .inl ⟨rfl, rfl⟩⟩

/-- An event that the window hands out reaches the render manager. -/
theorem receive_draws (h : s.Draws env) (e : WindowEvent) (queue : List WindowEvent) {pc : LoopPc}
    (hpc : s.pending = none) (hcommands : s.renderManager.commands = [])
    (hresting : s.frames.pc = .version) (hpc' : pc = .enqueue ∨ ∃ b, pc = .poll b) : { s.receive e queue with pc := pc }.Draws env := by
  obtain ⟨size, manager, heq, hcases⟩ := receive_eq s e queue
  have hmanager : (size.1 ≠ 0 → size.2 ≠ 0 → manager.canvasSize = size) ∧
      (manager.canvasSize.1 ≠ 0 → manager.canvasSize.2 ≠ 0 →
        manager.viewDirty = true ∨ s.view = manager.canvasSize) ∧ manager.commands = [] := by
    obtain ⟨rfl, rfl⟩ | rfl := hcases
    · exact ⟨h.canvas, h.view, hcommands⟩
    · exact ⟨onResize_canvas _ _, onResize_view size h.view, (onResize_commands _ _).trans hcommands⟩
  have hframes := h.frames
  rw [hpc] at hframes
  rw [heq]
  obtain rfl | ⟨b, rfl⟩ := hpc'
  · exact ⟨hmanager.1, hmanager.2.1, hmanager.2.2, h.screen, hframes, .inl hresting⟩
  · exact ⟨hmanager.1, hmanager.2.1, hmanager.2.2, h.screen, hframes, .inl hresting⟩

omit [ViewportMaths] in
/-- Outside of a frame nothing is queued. -/
theorem Application.Draws.idle (h : s.Draws env) (hpc : s.pc = .wait ∨ ∃ b, s.pc = .poll b) :
    s.pending = none ∧ s.renderManager.commands = [] ∧
      s.frames.frames = s.screen.filterMap Picture.frame ∧ s.frames.pc = .version := by
  have hqueued := h.queued
  have hframes := h.frames
  obtain hpc | ⟨b, hpc⟩ := hpc <;> rw [Application.Queued, hpc] at hqueued <;>
    rw [Application.pending, hpc] at hframes <;>
    exact ⟨by rw [Application.pending, hpc], hqueued, hframes,
      h.resting.resolve_right fun ⟨h, _⟩ => by rw [hpc] at h; cases h⟩

theorem poll_draws (h : s.Draws env) {b : Bool} (hpc : s.pc = .poll b) : (s.poll b).Draws env := by
  obtain ⟨hpending, hcommands, hframes, hresting⟩ := h.idle (.inr ⟨b, hpc⟩)
  unfold Application.poll
  split
  · exact ⟨h.canvas, h.view, hcommands, h.screen, hframes, .inl hresting⟩
  · exact receive_draws h _ _ hpending hcommands hresting (.inr ⟨true, rfl⟩)
  · split
    · exact ⟨h.canvas, h.view, hcommands, h.screen, hframes, .inl hresting⟩
    · exact ⟨h.canvas, h.view, hcommands, h.screen, hframes, .inl hresting⟩

theorem wait_draws (h : s.Draws env) (hpc : s.pc = .wait) (hs : s.wait = some t) :
    t.Draws env := by
  obtain ⟨hpending, hcommands, hframes, hresting⟩ := h.idle (.inl hpc)
  unfold Application.wait at hs
  split at hs <;> cases hs
  · exact ⟨h.canvas, h.view, hcommands, h.screen, hframes, .inl hresting⟩
  · refine receive_draws ?_ _ _ hpending hcommands hresting (.inl rfl)
    exact ⟨h.canvas, h.view, h.queued, h.screen, h.frames, h.resting⟩

omit [ViewportMaths] in
/-- The manager draws what is queued, in a view of its canvas. -/
theorem render_draws (h : s.Draws env) {frame : Option Frame} (hpc : s.pc = .render frame) :
    (s.render env frame).Draws env := by
  have hqueued := h.queued
  have hframes := h.frames
  have hresting : s.frames.pc = .version :=
    h.resting.resolve_right fun ⟨h, _⟩ => by rw [hpc] at h; cases h
  rw [Application.Queued, hpc] at hqueued
  rw [Application.pending, hpc] at hframes
  have hview (h₁ : s.renderManager.canvasSize.1 ≠ 0) (h₂ : s.renderManager.canvasSize.2 ≠ 0) :
      (s.render env frame).view = s.renderManager.canvasSize :=
    render_view env.sort _ _ _ h₁ h₂ (h.view h₁ h₂)
  have hpicture : Picture.Right env
      ⟨frame, s.windowSize, (s.render env frame).view,
        (env.sort.run s.renderManager.commands).map Prod.snd⟩ := by
    cases frame with
    | none =>
      refine ⟨hqueued.1, ?_⟩
      rw [hqueued.2, env.sort.run_eq (List.Perm.refl _) .nil]
      rfl
    | some frame =>
      obtain ⟨⟨h₁, h₂⟩, hcommands⟩ := hqueued
      have hsame := h.canvas h₁ h₂
      refine ⟨h₁, h₂, ?_, ?_⟩
      · exact (hview (by rwa [hsame]) (by rwa [hsame])).trans hsame
      · rw [hcommands]
        exact render_frameLayers ..
  have hscreen : (s.render env frame).frames.frames =
      (s.render env frame).screen.filterMap Picture.frame := by
    refine hframes.trans ?_
    cases frame <;> rfl
  have hpc' : (s.render env frame).pc = if s.isOpen then .poll false else .stopped := rfl
  refine ⟨h.canvas, fun h₁ h₂ => .inr (hview h₁ h₂), ?_,
    List.forall_mem_cons.mpr ⟨hpicture, h.screen⟩, ?_, .inl hresting⟩
  · rw [Application.Queued, hpc']
    cases s.isOpen <;> rfl
  · rw [hscreen, Application.pending, hpc']
    cases s.isOpen <;> rfl

/-- The commands of a new frame. -/
theorem addLayers_draws (h : s.Draws env) (hpc : s.pc = .enqueue) {repoCount : Nat}
    {latest : Nat → Option CandleSeries} {frames : Frames} {frame : Frame}
    (hs : s.frames.step (.draw repoCount latest) = some frames)
    (hframe : frames.frames.head? = some frame) :
    ({ s with frames := frames }.addLayers env frame).Draws env := by
  obtain ⟨hversion, frame', hadded⟩ := step_draw_frames hs
  have hsize := h.resting.resolve_left fun hrest => by
    dsimp only [Frames.step] at hs
    rw [hrest] at hs
    cases hs
  have hqueued := h.queued
  have hframes := h.frames
  rw [Application.Queued, hpc] at hqueued
  rw [Application.pending, hpc] at hframes
  rw [hadded] at hframe
  cases hframe
  unfold Application.addLayers
  rw [foldl_addRenderCommand, hqueued]
  exact ⟨h.canvas, h.view, ⟨hsize.2, rfl⟩, h.screen,
    hadded.trans (congrArg (List.cons frame) hframes), .inl hversion⟩

theorem step_draws (h : s.Draws env) {e : LoopEvent} (hs : s.step env e = some t) :
    t.Draws env := by
  cases e with
  | arrive e =>
    cases hs
    exact ⟨h.canvas, h.view, h.queued, h.screen, h.frames, h.resting⟩
  | update version series =>
    obtain ⟨frames, hframes, rfl⟩ := Option.map_eq_some_iff.mp hs
    obtain ⟨hkept, hpc⟩ := step_other_frames (.inl ⟨_, _, rfl⟩) hframes
    exact ⟨h.canvas, h.view, h.queued, h.screen, hkept.trans h.frames,
      h.resting.imp_left hpc.trans⟩
  | seriesUpdated =>
    cases hs
    exact ⟨h.canvas, h.view, h.queued, h.screen, h.frames, h.resting⟩
  | loop =>
    dsimp only [Application.step] at hs
    split at hs
    · cases hs
      exact poll_draws h ‹_›
    · exact wait_draws h ‹_› hs
    · rename_i hpc
      have hqueued := h.queued
      have hframes := h.frames
      rw [Application.Queued, hpc] at hqueued
      rw [Application.pending, hpc] at hframes
      split at hs
      · rename_i hsize
        cases hs
        have hnone : s.windowSize.1 = 0 ∨ s.windowSize.2 = 0 := by simpa using hsize
        refine ⟨h.canvas, h.view, ⟨hnone, hqueued⟩, h.screen, hframes, .inl ?_⟩
        exact h.resting.resolve_right fun ⟨_, h₁, h₂⟩ => hnone.elim h₁ h₂
      · rename_i hsize
        obtain ⟨frames, hstep, rfl⟩ := Option.map_eq_some_iff.mp hs
        exact ⟨h.canvas, h.view, h.queued, h.screen, (step_frame_frames hstep).trans h.frames,
          .inr ⟨hpc, by simpa using hsize⟩⟩
    · cases hs
      exact render_draws h ‹_›
    · cases hs
  | waitFails =>
    dsimp only [Application.step] at hs
    split at hs <;> cases hs
    obtain ⟨-, hcommands, hframes, hresting⟩ := h.idle (.inl ‹_›)
    exact ⟨h.canvas, h.view, hcommands, h.screen, hframes, .inl hresting⟩
  | draw repoCount latest =>
    dsimp only [Application.step] at hs
    split at hs
    · obtain ⟨frames, hstep, hs⟩ := Option.bind_eq_some_iff.mp hs
      obtain ⟨frame, hframe, hs⟩ := Option.bind_eq_some_iff.mp hs
      cases hs
      exact addLayers_draws h ‹_› hstep hframe
    · cases hs

theorem start_draws (env : Surroundings)
    (seriesCache : Cell (Option CandleSeries)) (view : Viewport) (size windowView : Nat × Nat) :
    (Application.start seriesCache view size windowView).Draws env := by
  refine ⟨fun h₁ h₂ => onResize_canvas _ _ h₁ h₂, onResize_view size fun _ _ => .inl rfl,
    onResize_commands _ _, fun _ hp => absurd hp List.not_mem_nil, rfl, .inl rfl⟩

end Draws

/-! ## What is waited for -/

/-- The window system has something for the loop: an event, or the end of a wait. -/
def LoopEvent.wakes : LoopEvent → Bool
  | .arrive _ => true
  | .waitFails => true
  | _ => false

/-- How many pictures the loop draws for what it has been handed out already. -/
def LoopPc.owed (isOpen : Bool) : LoopPc → Nat
  | .poll eventOccurred => if eventOccurred || !isOpen then 1 else 0
  | .wait => if isOpen then 0 else 1
  | .enqueue => 1
  | .render _ => 1
  | .stopped => 0

/-- The pictures so far, and those that are owed or may come of the queue. -/
def Application.budget (s : Application) : Nat :=
  s.screen.length + s.pc.owed s.isOpen + s.queue.length

section Owed

variable [ViewportMaths] {env : Surroundings} {s t : Application}

/-- An event that is handed out is worth one picture at most. -/
theorem receive_fields (s : Application) (e : WindowEvent) (queue : List WindowEvent) :
    (s.receive e queue).screen = s.screen ∧ (s.receive e queue).queue = queue := by
  obtain ⟨_, _, heq, -⟩ := receive_eq s e queue
  rw [heq]
  exact ⟨rfl, rfl⟩

omit [ViewportMaths] in
theorem render_fields (env : Surroundings) (s : Application) (frame : Option Frame) :
    (s.render env frame).screen.length = s.screen.length + 1 ∧
      (s.render env frame).isOpen = s.isOpen ∧ (s.render env frame).queue = s.queue ∧
      (s.render env frame).pc = if s.isOpen then .poll false else .stopped :=
  ⟨rfl, rfl, rfl, rfl⟩

theorem poll_budget (h : s.Draws env) {b : Bool} (hpc : s.pc = .poll b) :
    (s.poll b).budget ≤ s.budget := by
  obtain ⟨-, hcommands, -⟩ := h.idle (.inr ⟨b, hpc⟩)
  unfold Application.budget
  rw [hpc]
  unfold Application.poll
  split
  · rename_i queue hopen hqueue
    have howed : LoopPc.owed false (.poll b) = 1 := by cases b <;> rfl
    dsimp only
    rw [howed, hqueue, List.length_cons]
    omega
  · rename_i e queue _ hopen hqueue
    obtain ⟨hscreen, hrest⟩ := receive_fields s e queue
    dsimp only
    rw [hscreen, hrest, hqueue, List.length_cons]
    dsimp only [LoopPc.owed]
    rw [Bool.true_or, if_pos rfl]
    omega
  · have hnone : s.renderManager.hasCommands = false := by
      rw [RenderManager.hasCommands, hcommands]
      rfl
    dsimp only
    rw [hnone]
    cases b <;> cases s.isOpen <;> exact le_rfl

theorem wait_budget (hpc : s.pc = .wait) (hs : s.wait = some t) : t.budget ≤ s.budget := by
  unfold Application.budget
  rw [hpc]
  unfold Application.wait at hs
  split at hs <;> cases hs
  · rename_i hopen
    rw [hopen]
    exact le_rfl
  · rename_i e queue hopen hqueue
    obtain ⟨hscreen, hrest⟩ :=
      receive_fields { s with isOpen := decide (e ≠ WindowEvent.closed) } e queue
    dsimp only
    rw [hscreen, hrest, hopen, hqueue, List.length_cons]
    dsimp only [LoopPc.owed]
    rw [if_pos rfl]
    omega

/-- A step draws a picture for an event, or there is one more to be drawn. -/
theorem step_budget (h : s.Draws env) {e : LoopEvent}
    (hs : s.step env e = some t) : t.budget ≤ s.budget + if e.wakes then 1 else 0 := by
  cases e with
  | arrive e =>
    cases hs
    unfold Application.budget
    rw [List.length_append]
    exact le_rfl
  | update version series =>
    obtain ⟨frames, -, rfl⟩ := Option.map_eq_some_iff.mp hs
    exact le_rfl
  | seriesUpdated =>
    cases hs
    exact le_rfl
  | loop =>
    show t.budget ≤ s.budget
    dsimp only [Application.step] at hs
    split at hs
    · rename_i b hpc
      obtain rfl := Option.some.inj hs
      exact poll_budget h hpc
    · rename_i hpc
      exact wait_budget hpc hs
    · rename_i hpc
      unfold Application.budget
      split at hs
      · cases hs
        rw [hpc]
        exact le_rfl
      · obtain ⟨frames, -, rfl⟩ := Option.map_eq_some_iff.mp hs
        exact le_rfl
    · rename_i frame hpc
      obtain ⟨hscreen, hopen, hqueue, hpc'⟩ := render_fields env s frame
      obtain rfl := Option.some.inj hs
      unfold Application.budget
      rw [hpc, hscreen, hopen, hqueue, hpc']
      cases s.isOpen <;> exact le_rfl
    · cases hs
  | waitFails =>
    dsimp only [Application.step] at hs
    split at hs <;> cases hs
    rename_i hpc
    unfold Application.budget
    rw [hpc]
    have howed : (LoopPc.wait).owed s.isOpen ≤ 1 := by cases s.isOpen <;> decide
    show s.screen.length + 1 + s.queue.length ≤ _ + 1
    omega
  | draw repoCount latest =>
    show t.budget ≤ s.budget
    dsimp only [Application.step] at hs
    split at hs
    · rename_i hpc
      obtain ⟨frames, -, hs⟩ := Option.bind_eq_some_iff.mp hs
      obtain ⟨frame, -, hs⟩ := Option.bind_eq_some_iff.mp hs
      cases hs
      unfold Application.budget
      rw [hpc]
      exact le_rfl
    · cases hs

end Owed

/-! ## The events -/

def FrameEvent.user? : FrameEvent → Option InputCall
  | .user a => some a
  | _ => none

def WindowEvent.input? : WindowEvent → Option InputCall
  | .input a _ => some a
  | _ => none

/-- The loop does what a run of `Frames` does, and the events are published in the order they
arrived in; what closes the window may be left out. -/
structure Application.Follows [ViewportMaths] (start : Frames) (s : Application) : Prop where
  frames : ∃ es, run Frames.step start es = some s.frames ∧
    es.filterMap FrameEvent.user? = s.published.filterMap WindowEvent.input?
  arrived : ∃ l, s.arrived = s.published ++ l ++ s.queue ∧
    (l = [] ∨ l = [.closed] ∧ s.isOpen = false)

section Follows

variable [ViewportMaths] {env : Surroundings} {start : Frames} {s t : Application}

/-- A step of the frames, with what the user did in it. -/
theorem Application.Follows.advance (h : s.Follows start) {e : FrameEvent} {frames : Frames}
    (hs : s.frames.step e = some frames) : ∃ es, run Frames.step start es = some frames ∧
      es.filterMap FrameEvent.user? =
        s.published.filterMap WindowEvent.input? ++ e.user?.toList := by
  obtain ⟨es, hrun, hes⟩ := h.frames
  refine ⟨es ++ [e], ?_, ?_⟩
  · rw [run_append, hrun, Option.bind_some, run_cons, hs]
    rfl
  · rw [List.filterMap_append, hes]
    cases e <;> rfl

theorem receive_follows (h : s.Follows start) (hresting : s.frames.pc = .version)
    {e : WindowEvent} {queue : List WindowEvent} (hqueue : s.queue = e :: queue)
    (hopen : s.isOpen = true) (isOpen : Bool) (pc : LoopPc) :
    { ({ s with isOpen := isOpen }).receive e queue with pc := pc }.Follows start := by
  obtain ⟨size, manager, heq, -⟩ := receive_eq { s with isOpen := isOpen } e queue
  rw [heq]
  refine ⟨?_, ?_⟩
  · show ∃ es, run Frames.step start es = some { s.frames with input := e.handled s.frames.input } ∧
      es.filterMap FrameEvent.user? = (s.published ++ [e]).filterMap WindowEvent.input?
    have hsame : ∃ es, run Frames.step start es = some s.frames ∧ es.filterMap FrameEvent.user? =
        s.published.filterMap WindowEvent.input? ++ [] := by
      rw [List.append_nil]
      exact h.frames
    rw [List.filterMap_append]
    cases e with
    | closed => exact hsame
    | other => exact hsame
    | input a ha =>
      refine h.advance (e := .user a) ?_
      dsimp only [Frames.step]
      rw [hresting]
      exact if_pos ha
  · obtain ⟨l, harrived, rfl | ⟨-, hclosed⟩⟩ := h.arrived
    · refine ⟨[], ?_, .inl rfl⟩
      show s.arrived = s.published ++ [e] ++ [] ++ queue
      rw [harrived, hqueue]
      simp
    · rw [hopen] at hclosed
      cases hclosed

theorem step_follows (h : s.Follows start) (hd : s.Draws env) {e : LoopEvent}
    (hs : s.step env e = some t) : t.Follows start := by
  -- A step of the frames that is no input.
  have hother {e : FrameEvent} {frames : Frames} (he : e.user? = none)
      (hs : s.frames.step e = some frames) : ∃ es, run Frames.step start es = some frames ∧
        es.filterMap FrameEvent.user? = s.published.filterMap WindowEvent.input? := by
    have hadvance := h.advance hs
    rw [he] at hadvance
    simpa using hadvance
  cases e with
  | arrive e =>
    cases hs
    obtain ⟨l, harrived, hl⟩ := h.arrived
    refine ⟨h.frames, l, ?_, hl⟩
    show s.arrived ++ [e] = _ ++ (s.queue ++ [e])
    rw [harrived, List.append_assoc, List.append_assoc]
  | update version series =>
    obtain ⟨frames, hstep, rfl⟩ := Option.map_eq_some_iff.mp hs
    exact ⟨hother rfl hstep, h.arrived⟩
  | seriesUpdated =>
    cases hs
    exact ⟨hother (e := .seriesUpdated) rfl rfl, h.arrived⟩
  | loop =>
    dsimp only [Application.step] at hs
    split at hs
    · rename_i b hpc
      obtain ⟨-, -, -, hresting⟩ := hd.idle (.inr ⟨b, hpc⟩)
      obtain rfl := Option.some.inj hs
      unfold Application.poll
      split
      · rename_i queue hopen hqueue
        obtain ⟨l, harrived, rfl | ⟨-, hclosed⟩⟩ := h.arrived
        · refine ⟨h.frames, [.closed], ?_, .inr ⟨rfl, rfl⟩⟩
          rw [harrived, hqueue]
          simp
        · rw [hopen] at hclosed
          cases hclosed
      · exact receive_follows h hresting ‹_› ‹_› s.isOpen _
      · exact ⟨h.frames, h.arrived⟩
    · obtain ⟨-, -, -, hresting⟩ := hd.idle (.inl ‹_›)
      unfold Application.wait at hs
      split at hs <;> cases hs
      · exact ⟨h.frames, h.arrived⟩
      · exact receive_follows h hresting ‹_› ‹_› _ _
    · split at hs
      · cases hs
        exact ⟨h.frames, h.arrived⟩
      · obtain ⟨frames, hstep, rfl⟩ := Option.map_eq_some_iff.mp hs
        exact ⟨hother rfl hstep, h.arrived⟩
    · cases hs
      exact ⟨h.frames, h.arrived⟩
    · cases hs
  | waitFails =>
    dsimp only [Application.step] at hs
    split at hs <;> cases hs
    exact ⟨h.frames, h.arrived⟩
  | draw repoCount latest =>
    dsimp only [Application.step] at hs
    split at hs
    · obtain ⟨frames, hstep, hs⟩ := Option.bind_eq_some_iff.mp hs
      obtain ⟨frame, -, hs⟩ := Option.bind_eq_some_iff.mp hs
      cases hs
      exact ⟨hother rfl hstep, h.arrived⟩
    · cases hs

end Follows

/-! ## Every run -/

/-- The builder of the application, and a small run: a resize, a frame, and the end. -/
def surroundings : Surroundings where
  sort := .insertion
  resourceProvider := true
  overlayFont := true
  build frame size := { (RenderSnapshotBuilder.construct (3 / 4) (3 / 2)).build
    (frame.series.getD ⟨⟨60000⟩, [], 0, 0⟩) frame.chart.view size.1 size.2 with }

def resizeAndClose : List LoopEvent :=
  [.update 1 (some twoMinutes), .seriesUpdated, .arrive (.input (.resized (500, 300)) rfl),
    .loop, .loop, .loop, .loop, .loop, .draw 0 fun _ => none, .loop, .arrive .closed,
    .loop, .loop, .loop, .loop, .loop, .loop, .draw 0 fun _ => none, .loop]

theorem exists_resizeAndClose : ∃ s, run (Application.step surroundings)
      (.start (.fresh 0 none) ⟨0, 0, 0, 0⟩ (400, 300) (400, 300)) resizeAndClose = some s ∧
    s.screen.map (fun p => (p.frame.isSome, p.view)) = [(true, (500, 300)), (true, (500, 300))] :=
  Option.map_eq_some_iff.mp (by decide +kernel)

/-- In every run, each frame that has been built is drawn once, in order, with the layers of
its snapshot from below and nothing else, in a view of the size that the snapshot was built
for; a window without an area gets no frames. -/
theorem pictures_drawn [ViewportMaths] (env : Surroundings)
    (seriesCache : Cell (Option CandleSeries)) (view : Viewport) (size windowView : Nat × Nat)
    (es : List LoopEvent) (s : Application)
    (hrun : run (Application.step env) (.start seriesCache view size windowView) es = some s) :
    (∀ p ∈ s.screen, p.Right env) ∧
      s.frames.frames = s.pending.toList ++ s.screen.filterMap Picture.frame := by
  have h := inv_of_along (P := fun _ _ => True) (fun _ _ _ h _ hs => step_draws h hs)
    (start_draws env seriesCache view size windowView) (along_of_forall fun _ _ => trivial) hrun
  exact ⟨h.screen, h.frames⟩

theorem pictures_drawn_resize : ∃ s, run (Application.step surroundings)
      (.start (.fresh 0 none) ⟨0, 0, 0, 0⟩ (400, 300) (400, 300)) resizeAndClose = some s ∧
    s.screen.map (fun p => (p.frame.isSome, p.view)) = [(true, (500, 300)), (true, (500, 300))] ∧
    (∀ p ∈ s.screen, p.Right surroundings) ∧
      s.frames.frames = s.pending.toList ++ s.screen.filterMap Picture.frame := by
  obtain ⟨s, hs, hscreen⟩ := exists_resizeAndClose
  exact ⟨s, hs, hscreen, pictures_drawn surroundings _ _ _ _ resizeAndClose s hs⟩

/-- In every part of a run there are at most as many pictures as events that were handed out (those
that were waiting or came, less those that still wait), and waits that failed, but for one that was
begun before. So nothing is drawn while the loop waits, whatever the other threads write and
announce. -/
theorem frames_need_events [ViewportMaths] (env : Surroundings)
    (seriesCache : Cell (Option CandleSeries)) (view : Viewport) (size windowView : Nat × Nat)
    (es es' : List LoopEvent) (s t : Application)
    (hrun : run (Application.step env) (.start seriesCache view size windowView) es = some s)
    (hrun' : run (Application.step env) s es' = some t) :
    t.screen.length + t.queue.length ≤
      s.screen.length + s.pc.owed s.isOpen + s.queue.length + es'.countP LoopEvent.wakes := by
  have h := inv_of_along (P := fun _ _ => True) (fun _ _ _ h _ hs => step_draws h hs)
    (start_draws env seriesCache view size windowView) (along_of_forall fun _ _ => trivial) hrun
  have hbudget : t.Draws env ∧ t.budget ≤ s.budget + es'.countP LoopEvent.wakes := by
    refine run_induction (P := fun es t => t.Draws env ∧
      t.budget ≤ s.budget + es.countP LoopEvent.wakes) ⟨h, le_rfl⟩ ?_ hrun'
    rintro es e t u - ⟨hd, hle⟩ hs
    refine ⟨step_draws hd hs, ?_⟩
    have hstep := step_budget hd hs
    rw [List.countP_append, List.countP_singleton]
    omega
  refine le_trans ?_ hbudget.2
  unfold Application.budget
  omega

theorem frames_need_events_resize : ∃ s t, run (Application.step surroundings)
      (.start (.fresh 0 none) ⟨0, 0, 0, 0⟩ (400, 300) (400, 300)) [.loop] = some s ∧
    run (Application.step surroundings) s [.update 1 (some twoMinutes), .seriesUpdated] = some t ∧
    t.screen.length + t.queue.length ≤
      s.screen.length + s.pc.owed s.isOpen + s.queue.length + 0 := by
  obtain ⟨t, ht⟩ : ∃ t, run (Application.step surroundings)
      (.start (.fresh 0 none) ⟨0, 0, 0, 0⟩ (400, 300) (400, 300))
      ([.loop] ++ [.update 1 (some twoMinutes), .seriesUpdated]) = some t :=
    Option.isSome_iff_exists.mp (by decide +kernel)
  rw [run_append] at ht
  obtain ⟨s, hs, ht⟩ := Option.bind_eq_some_iff.mp ht
  exact ⟨s, t, hs, ht, frames_need_events surroundings _ _ _ _ [.loop] _ s t hs ht⟩

/-- A run of the loop is one of `Frames` with the inputs that were published, and what has
arrived is published in its order, each event once: what is left are the events still in the
queue, and at most the one that closed the window. -/
theorem loop_refines [ViewportMaths] (env : Surroundings)
    (seriesCache : Cell (Option CandleSeries)) (view : Viewport) (size windowView : Nat × Nat)
    (es : List LoopEvent) (s : Application)
    (hrun : run (Application.step env) (.start seriesCache view size windowView) es = some s) :
    s.Follows (.start seriesCache view size) := by
  have hstart : (Application.start seriesCache view size windowView).Follows
      (.start seriesCache view size) := ⟨⟨[], rfl, rfl⟩, [], rfl, .inl rfl⟩
  have hstep (u : Application) (e : LoopEvent) (v : Application)
      (h : u.Draws env ∧ u.Follows (.start seriesCache view size)) (_ : True)
      (hs : u.step env e = some v) : v.Draws env ∧ v.Follows (.start seriesCache view size) :=
    ⟨step_draws h.1 hs, step_follows h.2 h.1 hs⟩
  exact (inv_of_along hstep ⟨start_draws env seriesCache view size windowView, hstart⟩
    (along_of_forall fun _ _ => trivial) hrun).2

theorem loop_refines_resize : ∃ s, run (Application.step surroundings)
      (.start (.fresh 0 none) ⟨0, 0, 0, 0⟩ (400, 300) (400, 300)) resizeAndClose = some s ∧
    s.Follows (.start (.fresh 0 none) ⟨0, 0, 0, 0⟩ (400, 300)) := by
  obtain ⟨s, hs, -⟩ := exists_resizeAndClose
  exact ⟨s, hs, loop_refines surroundings _ _ _ _ resizeAndClose s hs⟩

end TCV.App
