import ReplaySystem.Basic
import ReplaySystem.Ring
import ReplaySystem.RingInterleaving
import ReplaySystem.Format
import ReplaySystem.Log
import ReplaySystem.ReplayEngine
import ReplaySystem.Client
import ReplaySystem.Recorder
import ReplaySystem.System
import ReplaySystem.RingChannel
import ReplaySystem.Ipc
import ReplaySystem.IpcFine
import ReplaySystem.SpinLock
import ReplaySystem.IpcLog
import ReplaySystem.Server
