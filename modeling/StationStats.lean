import StationStats.File.Schedule
import StationStats.Main
import StationStats.Proofs.File.Segmentation
import StationStats.Proofs.File.Stream
import StationStats.Proofs.Run.Summary
import StationStats.Proofs.Station.Refinement
import StationStats.Proofs.Station.Assembly
import StationStats.Proofs.Station.Union
import StationStats.Proofs.Station.Combination
import StationStats.Proofs.Row.Failure
import StationStats.Proofs.Run.Failure
import StationStats.Proofs.Row.Reading
import StationStats.Proofs.Row.Diagnosis
import StationStats.Proofs.Row.Refusal
import StationStats.Proofs.Row.Safety
import StationStats.Proofs.File.Interruption
import StationStats.Proofs.File.FullRead
import StationStats.Proofs.File.Boundaries
import StationStats.Proofs.Run.Workers
import StationStats.Proofs.File.Rendering
import StationStats.Proofs.Row.Naming
import StationStats.Proofs.Station.Collisions
import StationStats.Proofs.Station.Overcrowding
