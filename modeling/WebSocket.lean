import WebSocket.Lua.Agree
import WebSocket.Lua.Emitter
import WebSocket.Lua.Options
import WebSocket.Lua.Socket
import WebSocket.Lua.Timer
import WebSocket.Native.Decision
import WebSocket.Native.Ownership
import WebSocket.Native.Strings
import WebSocket.Net.Dial
import WebSocket.Net.Graceful
import WebSocket.Net.Heartbeat
import WebSocket.Net.Agreement
import WebSocket.Net.Inbox
import WebSocket.Net.Memory
import WebSocket.Net.Permits
import WebSocket.Net.Pongs
import WebSocket.Net.Refusal
import WebSocket.Net.Signal
import WebSocket.Net.Written
import WebSocket.Proto.Replies
import WebSocket.Proto.Bounds
import WebSocket.Proto.Reparse
import WebSocket.Proto.Verdicts
import WebSocket.Proto.Text
